import Ringfire.Ring.Registration
import Ringfire.Ring.Wait

/-!
# Blocked producers and sleeping readers

The single-producer ring together with the wake-up protocol. Every store of `write_seq` is
followed by `wake_futex` before the producer goes on (`publish_progress`), also when it is about
to block in `wait_for_headroom` in the middle of a batch; a reader between two receive calls may
wait for its cursor (`recv_blocking` with `FutexWait`).

## Main definitions

* `BlockingSystem.step`: one memory access of one thread
* `RingProducer.inRetryLoop`: the producer is inside the retry loop of `wait_for_headroom`

## Main results

* `RingConsumer.step_synced`: between two calls a reader's registered cursor is its cursor
* `BlockingSystem.blocked_and_asleep_exclude`: no reader that holds a blocked producer back sleeps
-/

namespace Ringfire

variable {ρ : Type} {w : ℕ} {ω : Type}

/-! ## The registered cursor between two calls -/

/-- A batch has delivered nothing yet; `recv_status` delivers one message at most. -/
def Receive.fresh : Receive → Bool
  | .status | .batch _ 0 => true
  | .batch _ (_ + 1) => false

namespace RingConsumer

variable {c c' : RingConsumer w ω}

/-- The cursor has not moved since a registered consumer last stored it. -/
def synced (c : RingConsumer w ω) : Bool :=
  match c.pc with
  | .idle | .latestLoad | .oldestLoad | .skipLoad .attach _ _ _ => true
  | .reading call _ _ | .skipLoad _ call _ _ | .staleLoad call _ | .holeLoad call _
  | .holeSeen call _ _ | .holeScan call _ _ _ => call.fresh
  | .register _ => false

theorem settle_synced (hreg : c.registered = true) (resume : Option (Receive × ℕ)) :
    (c.settle resume).synced = false := by
  unfold settle synced
  rw [hreg]
  rfl

theorem giveUp_synced {call : Receive} (hreg : c.registered = true)
    (h : (c.giveUp call).synced = true) : call.fresh = true := by
  unfold giveUp at h
  split at h
  · rfl
  · rfl
  · rw [settle_synced hreg] at h
    cases h

theorem deliver_synced {skipped : ℕ} {data : Payload w ω} {call : Receive}
    (hreg : c.registered = true) : (c.deliver skipped data call).synced = false := by
  unfold deliver
  split
  · exact settle_synced hreg none
  · split_ifs
    · exact settle_synced hreg none
    · rfl

theorem jumpTo_synced {target : ℕ} (hreg : c.registered = true)
    (h : (c.jumpTo target).synced = true) : (c.jumpTo target).cursor = c.cursor := by
  unfold jumpTo at *
  split_ifs at h ⊢
  · cases h.symm.trans (settle_synced (by exact hreg) none)
  · rfl

theorem afterRead_synced {call : Receive} {skipped : ℕ} {r : SlotRead (Payload w ω)}
    (hreg : c.registered = true) (h : c.afterRead call skipped r = some c')
    (hs : c'.synced = true) : c'.cursor = c.cursor ∧ call.fresh = true := by
  cases r with
  | item data =>
    simp only [afterRead] at h
    split_ifs at h
    cases h
    rw [deliver_synced hreg] at hs
    cases hs
  | overwritten seen =>
    cases h
    exact ⟨rfl, hs⟩
  | pending =>
    simp only [afterRead] at h
    split_ifs at h <;> cases h
    · exact ⟨rfl, hs⟩
    · exact ⟨rfl, hs⟩
    · exact ⟨by rw [giveUp_account], giveUp_synced (by exact hreg) hs⟩
    · exact ⟨by rw [giveUp_account], giveUp_synced hreg hs⟩

/-- A registered consumer's cursor moves only until it is stored. -/
theorem step_synced [Inhabited ω] {cap : Capacity} {slots : ℕ → Slot w ω} {writeSeq : ℕ}
    {a : ConsumerLabel w} {stored : Option ℕ} (hreg : c.registered = true)
    (h : c.step cap slots writeSeq a = some (c', stored)) (hs : c'.synced = true) :
    c'.cursor = c.cursor ∧ (stored = some c.cursor ∨ (stored = none ∧ c.synced = true)) := by
  cases step_moves h with
  | call call hpc =>
    refine ⟨by rw [start_account], .inr ⟨rfl, ?_⟩⟩
    simp only [synced, hpc]
  | word call skipped rd rd' i hpc | load call skipped rd rd' hpc =>
    exact ⟨rfl, .inr ⟨rfl, by simp only [synced, hpc]; exact hs⟩⟩
  | done call skipped rd r _ hpc hr hc =>
    obtain ⟨hcur, hfresh⟩ := afterRead_synced hreg hc hs
    exact ⟨hcur, .inr ⟨rfl, by simp only [synced, hpc, hfresh]⟩⟩
  | skip site call skipped seen hpc =>
    unfold skipOverwritten at hs ⊢
    split_ifs at hs ⊢
    · cases hs.symm.trans (settle_synced (by exact hreg) _)
    · cases site with
      | overwritten =>
        refine ⟨by rw [giveUp_account], .inr ⟨rfl, ?_⟩⟩
        simp only [synced, hpc, giveUp_synced hreg hs]
      | stale => exact ⟨rfl, .inr ⟨rfl, by simp only [synced, hpc]; exact hs⟩⟩
      | attach => exact ⟨rfl, .inr ⟨rfl, by simp only [synced, hpc]⟩⟩
  | giveUp call skipped hpc =>
    have hfresh := giveUp_synced hreg hs
    refine ⟨by rw [giveUp_account], .inr ⟨rfl, ?_⟩⟩
    rcases hpc with hpc | hpc | ⟨ws, hpc⟩ <;> simp only [synced, hpc, hfresh]
  | stale call skipped hpc | hole call skipped hpc | scan call skipped ws hpc
  | scanNext call skipped ws next hpc =>
    exact ⟨rfl, .inr ⟨rfl, by simp only [synced, hpc]; exact hs⟩⟩
  | found => cases hs.symm.trans (settle_synced (by exact hreg) _)
  | register => exact ⟨rfl, .inl rfl⟩
  | jump target hpc =>
    refine ⟨jumpTo_synced hreg hs, .inr ⟨rfl, ?_⟩⟩
    rcases hpc with hpc | hpc <;> simp only [synced, hpc]

end RingConsumer

/-! ## The producer's side -/

namespace RingProducer

variable {cap : Capacity} {n : ℕ} {isAlive : ℕ → Bool} {m m' : Shared w ω} {p p' : RingProducer w ω}

/-- The next access stores `write_seq`, as `publish_progress` does. -/
def publishes (p : RingProducer w ω) : Bool :=
  match p.pc with
  | .publish | .blockPublish _ _ => true
  | _ => false

/-- The producer is inside the retry loop of `wait_for_headroom`. -/
def inRetryLoop (p : RingProducer w ω) : Bool :=
  match p.pc with
  | .blocked _ _ _ => true
  | .scanActive (.retry _ _ _) _ _ | .scanPid (.retry _ _ _) _ _
  | .scanCursor (.retry _ _ _) _ _ => true
  | .pruneLoad (.retry _ _ _) _ _ | .pruneReclaim (.retry _ _ _) _ _ _ => true
  | _ => false

/-- Only `publish_progress` stores `write_seq`. -/
theorem step_writeSeq {a : ProducerLabel w ω} (h : p.step cap n isAlive m a = some (m', p')) :
    m'.writeSeq = if p.publishes then p.seq - 1 else m.writeSeq := by
  cases step_moves h with
  | blockPublish item rest hpc | publish hpc => simp only [publishes, hpc, if_true]
  | call c hpc | enter todo hpc | retry item rest spins hpc | mark item rest hpc
  | word item left rest i hpc | commit item rest hpc =>
    simp only [publishes, hpc, Bool.false_eq_true, if_false]
  | active k i min hpc | inactive k i min hpc | gate k i min hpc | owned k i min hpc
  | unowned k i min hpc | load k i min hpc | condemn k i c hpc | spare k i c hpc | pruned k i c hpc
  | reclaim k i pid c hpc => simp only [publishes, hpc, Bool.false_eq_true, if_false]

theorem start_inRetryLoop {c : ProducerCall (Payload w ω)} (hpc : p.pc = .idle) :
    (p.start c).inRetryLoop = false := by
  cases c with
  | push item => rfl
  | tryPush item =>
    unfold start
    split_ifs <;> rfl
  | pushBatch items =>
    cases items with
    | nil => simp only [start, inRetryLoop, hpc]
    | cons item rest => rfl

theorem enter_inRetryLoop {todo : List (Payload w ω)} : (p.enter n todo).inRetryLoop = false := by
  cases todo with
  | nil => rfl
  | cons item rest =>
    unfold enter
    split_ifs <;> rfl

theorem gate_inRetryLoop {k : GateReturn (Payload w ω)} {i : ℕ} {min : Option ℕ}
    (hpc : p.pc = .scanActive k i min) (h : (p.gate cap min k).inRetryLoop = true) :
    p.inRetryLoop = true := by
  cases k with
  | retry item rest spins => simp only [inRetryLoop, hpc]
  | headroom | tryPush | tryPushAgain =>
    unfold gate at h
    split_ifs at h <;> cases h

theorem pruned_inRetryLoop {k : PruneReturn (Payload w ω)} {i c : ℕ}
    (hpc : p.pc = .pruneLoad k i c) (h : (p.pruned c k).inRetryLoop = true) :
    p.inRetryLoop = true := by
  cases k with
  | retry item rest spins => simp only [inRetryLoop, hpc]
  | tryPush item =>
    unfold pruned at h
    split_ifs at h <;> cases h

/-- In the retry loop everything written so far is published. -/
theorem step_inRetryLoop {a : ProducerLabel w ω} (h : p.step cap n isAlive m a = some (m', p'))
    (hp : p.inRetryLoop = true → m.writeSeq = p.seq - 1) (hp' : p'.inRetryLoop = true) :
    m'.writeSeq = p'.seq - 1 := by
  cases step_moves h with
  | call c hpc =>
    rw [start_inRetryLoop hpc] at hp'
    cases hp'
  | enter =>
    rw [enter_inRetryLoop] at hp'
    cases hp'
  | gate k i min hpc =>
    rw [(gate_quiet cap hpc).seq]
    exact hp (gate_inRetryLoop hpc hp')
  | pruned k i c hpc =>
    rw [(pruned_quiet hpc).seq]
    exact hp (pruned_inRetryLoop hpc hp')
  | retry item rest spins hpc =>
    rw [(retry_quiet hpc).seq]
    exact hp (by simp only [inRetryLoop, hpc])
  | blockPublish => rfl
  | active k i min hpc | inactive k i min hpc | owned k i min hpc | unowned k i min hpc
  | load k i min hpc | condemn k i c hpc | spare k i c hpc | reclaim k i pid c hpc =>
    exact hp (by cases k <;> simp_all [inRetryLoop])
  | mark | word | commit | publish => cases hp'

end RingProducer

namespace System

variable {cfg : Config} {s s' : System ρ w ω}

/-- The registered cursor of a live reader is its cursor, unless it is about to be stored. -/
def Synced (s : System ρ w ω) : Prop :=
  ∀ r pid i c, s.readers r = .attached pid (some i) c → s.alive pid = true →
    c.registered = true ∧ (c.synced = true → (s.mem.regs i).cursorSeq = c.cursor)

/-- A reader's own step keeps its registered cursor in step. -/
theorem ReaderMove.synced [Inhabited ω] {l : Label ρ w ω} {r : ρ} {x : Reader w ω}
    {regs : ℕ → ReaderSlot} {pid i : ℕ} {c : RingConsumer w ω} (hreg : s.RegInv cfg)
    (h : s.Synced) (hm : ReaderMove cfg s l r x regs) (hx : x = .attached pid (some i) c) :
    c.registered = true ∧ (c.synced = true → (regs i).cursorSeq = c.cursor) := by
  subst hx
  cases hm with
  | attach _ _ _ _ _ next => cases next
  | readSlot _ _ next => cases next
  | drop _ next =>
    unfold Reader.drop at next
    split at next
    · split at next <;> cases next
    · split at next <;> cases next
    · cases next
  | step a label alive next =>
    have hown := hreg.own r alive
    generalize hr : s.readers r = y at next alive hown
    unfold Reader.step at next
    split at next
    -- not attached yet, or just now: the slot holds the start position
    case h_1 q start =>
      split_ifs at next
      have hattach := congrArg Prod.fst (Option.some.inj next)
      unfold Reader.attachAt at hattach
      split_ifs at hattach
      cases hattach
    case h_2 q cursor lapped j =>
      cases next
      exact ⟨rfl, fun _ => hown.2.2⟩
    case h_3 => split at next <;> cases next
    -- attached: what `update_cursor` stored last is the cursor of the consumer
    case h_5 a q slot c₀ =>
      obtain ⟨⟨c', stored⟩, hc, he⟩ := Option.map_eq_some_iff.mp next
      cases he
      obtain ⟨hregd, hcur⟩ := h r pid i c₀ hr alive
      have hmode := RingConsumer.step_mode hc
      simp only [RingConsumer.mode, Prod.mk.injEq] at hmode
      refine ⟨hmode.2.2.trans hregd, fun hs => ?_⟩
      obtain ⟨heq, rfl | ⟨rfl, hs₀⟩⟩ := RingConsumer.step_synced hregd hc hs
      · simp only [Reader.storeCursor, updateCursor, Function.update_self, heq]
      · simp only [Reader.storeCursor, hcur hs₀, heq]
    case h_6 | h_10 => cases next
    all_goals
      obtain ⟨_, -, he⟩ := Option.map_eq_some_iff.mp next
      cases he

variable [DecidableEq ρ] [Inhabited ω]

theorem Synced.step {l : Label ρ w ω} (h : s.Synced) (hinv : s.Inv cfg) (hreg : s.RegInv cfg)
    (hstep : s.step cfg l = some s') : s'.Synced := by
  intro r pid i c hr halive
  cases step_move hstep with
  | producer a mem producer hp next =>
    subst next
    -- pruning does not touch the slot of a live reader
    have hslot := hreg.producer_regs_eq hp (r := r) (i := i) (by rw [hr]; exact halive)
      (by rw [hr]; rfl)
    simp only [hslot]
    exact h r pid i c hr halive
  | reader r₀ x regs hm next =>
    subst next
    simp only at hr halive ⊢
    by_cases hne : r = r₀
    · subst hne
      rw [Function.update_self] at hr
      exact hm.synced hreg h hr
    · rw [Function.update_of_ne hne] at hr
      have hmove := hm.regMove hinv hreg
      have hfree := hreg.not_touches (Ne.symm hne) hmove.alive (i := i) (by rw [hr]; exact halive)
        (by rw [hr]; rfl)
      rw [hmove.untouched i hfree]
      exact h r pid i c hr halive
  | die q next =>
    subst next
    exact h r pid i c hr (alive_before_die halive)

/-- An attached reader stays as it is in the steps of the others. -/
theorem step_attached {l : Label ρ w ω} {r : ρ} {pid : ℕ} {slot : Option ℕ} {c : RingConsumer w ω}
    (hstep : s.step cfg l = some s') (hr : s.readers r = .attached pid slot c)
    (hmove : ∀ a, l ≠ .reader r a) (hdrop : l ≠ .drop r) : s'.readers r = .attached pid slot c := by
  have hother {r₀ : ρ} {x : Reader w ω} (hne : r ≠ r₀) :
      Function.update s.readers r₀ x r = .attached pid slot c := by
    rw [Function.update_of_ne hne, hr]
  cases l with
  | producer a =>
    simp only [System.step] at hstep
    split at hstep <;> cases hstep
    exact hr
  | attach r₀ q start =>
    simp only [System.step] at hstep
    split at hstep
    · next habsent =>
      split_ifs at hstep
      cases hstep
      refine hother fun heq => ?_
      rw [← heq, hr] at habsent
      cases habsent
    · cases hstep
  | readSlot r₀ want =>
    simp only [System.step] at hstep
    split at hstep <;> cases hstep
    next habsent =>
      refine hother fun heq => ?_
      rw [← heq, hr] at habsent
      cases habsent
  | reader r₀ a =>
    simp only [System.step] at hstep
    split_ifs at hstep
    split at hstep <;> cases hstep
    exact hother fun heq => hmove a (by rw [heq])
  | drop r₀ =>
    simp only [System.step] at hstep
    split_ifs at hstep
    split at hstep <;> cases hstep
    exact hother fun heq => hdrop (by rw [heq])
  | die q =>
    cases hstep
    exact hr

end System

/-! ## The system -/

/-- The ring, the words of the wake-up protocol, the producer's place in `wake_futex` and the
readers' wait strategies. -/
structure BlockingSystem (ρ : Type) (w : ℕ) (ω : Type) where
  ring : System ρ w ω
  futexWord : ℕ
  waitingConsumers : ℕ
  wakes : ℕ
  waker : WakePc
  waits : ρ → FutexWait

/-- Who moves: a thread of the ring, the producer inside `wake_futex`, or a reader inside `wait`. -/
inductive BlockingLabel (ρ : Type) (w : ℕ) (ω : Type) where
  | ring (l : Label ρ w ω)
  | wake
  | wait (r : ρ) (a : WaitLabel)

namespace BlockingSystem

/-- The wake-up protocol's part of the system. -/
def toWait (s : BlockingSystem ρ w ω) : WaitSystem Unit ρ :=
  ⟨s.ring.mem.writeSeq, s.futexWord, s.waitingConsumers, s.wakes, fun _ => s.waker, s.waits⟩

/-- The system after a step of the wake-up protocol, which leaves the ring alone. -/
def withWait (s : BlockingSystem ρ w ω) (t : WaitSystem Unit ρ) : BlockingSystem ρ w ω :=
  ⟨s.ring, t.futexWord, t.waitingConsumers, t.wakes, t.producers (), t.consumers⟩

/-- A thread inside `wake_futex` or `wait` does not go on with the ring before it returns. -/
def mayMove (s : BlockingSystem ρ w ω) : Label ρ w ω → Bool
  | .producer _ => s.waker = .idle
  | .reader r _ | .drop r => (s.waits r).pc = .idle
  | _ => true

/-- A live reader waits for its own cursor, between two calls. -/
def mayWait (s : BlockingSystem ρ w ω) (r : ρ) (a : WaitLabel) : Bool :=
  match s.ring.readers r with
  | .attached pid _ c =>
    match c.pc, a with
    | .idle, .wait cursor => s.ring.alive pid && cursor == c.cursor
    | .idle, _ => s.ring.alive pid
    | _, _ => false
  | _ => false

/-- Where the producer stands in `wake_futex` after a step of the ring. -/
def nextWaker (s : BlockingSystem ρ w ω) : Label ρ w ω → WakePc
  | .producer _ => if s.ring.producer.publishes then .check else s.waker
  | _ => s.waker

variable [DecidableEq ρ] [Inhabited ω]

/-- A freshly created ring, and readers with the given spin limits. -/
def create (w : ℕ) (ω : Type) [Inhabited ω] (cfg : Config) (spinLimit : ρ → ℕ) :
    BlockingSystem ρ w ω :=
  ⟨.create ρ w cfg, 0, 0, 0, .idle, fun r => ⟨0, spinLimit r, .idle⟩⟩

/-- One memory access of one thread. -/
def step (cfg : Config) (s : BlockingSystem ρ w ω) :
    BlockingLabel ρ w ω → Option (BlockingSystem ρ w ω)
  | .ring l =>
    -- a producer inside `wake_futex` and a reader inside `wait` do nothing else
    if s.mayMove l then
      (s.ring.step cfg l).map fun ring => { s with ring := ring, waker := s.nextWaker l }
    else none
  | .wake => (s.toWait.step (.wake ())).map s.withWait
  | .wait r a => if s.mayWait r a then (s.toWait.step (.consumer r a)).map s.withWait else none

/-- `futex_word` does not come round between a reader's load and its sleep. -/
def Timely (s : BlockingSystem ρ w ω) : BlockingLabel ρ w ω → Prop
  | .wait r a => s.toWait.Timely (.consumer r a)
  | _ => True

/-! ## The invariant -/

/-- The ring, its registry and the protocol are in order; who waits does so between two calls, for
its own cursor; and a blocked producer has published what it wrote. -/
structure Inv [Fintype ρ] (cfg : Config) (s : BlockingSystem ρ w ω) : Prop where
  ring : s.ring.Inv cfg
  registry : s.ring.RegInv cfg
  synced : s.ring.Synced
  wait : s.toWait.Inv
  target : ∀ r cursor, (s.waits r).pc.target = some cursor → ∃ pid slot c,
    s.ring.readers r = .attached pid slot c ∧ c.pc = .idle ∧ c.cursor = cursor
  blocked : s.ring.producer.inRetryLoop = true →
    s.ring.mem.writeSeq = s.ring.producer.seq - 1

variable [Fintype ρ] {cfg : Config} {s s' : BlockingSystem ρ w ω}

omit [DecidableEq ρ] [Fintype ρ] [Inhabited ω] in
theorem toWait_withWait {t : WaitSystem Unit ρ} (h : t.writeSeq = s.toWait.writeSeq) :
    (s.withWait t).toWait = t := by
  obtain ⟨writeSeq, futexWord, waiting, wakes, producers, consumers⟩ := t
  cases h
  rfl

omit [DecidableEq ρ] in
theorem Inv.create (cfg : Config) (spinLimit : ρ → ℕ) :
    (create w ω cfg spinLimit).Inv cfg where
  ring := .create ρ w cfg
  registry := .create ρ w cfg
  synced := by rintro r pid i c ⟨⟩
  wait := .create Unit 0 spinLimit
  target := by rintro r cursor ⟨⟩
  blocked := by rintro ⟨⟩

/-- A step of the ring is a store of `write_seq` for the wake-up protocol, or nothing. -/
theorem Inv.ring_step {l : Label ρ w ω} {ring : System ρ w ω} (h : s.Inv cfg)
    (hmay : s.mayMove l = true) (hstep : s.ring.step cfg l = some ring) :
    Inv cfg { s with ring := ring, waker := s.nextWaker l } := by
  refine ⟨h.ring.step hstep, h.registry.step h.ring hstep, h.synced.step h.ring h.registry hstep,
    ?_, fun r cursor hr => ?_, ?_⟩
  · by_cases hl : ∃ a, l = .producer a
    -- a store to `write_seq` makes the producer a waker
    · obtain ⟨a, rfl⟩ := hl
      have hseq := RingProducer.step_writeSeq (System.step_producer hstep)
      by_cases hpub : s.ring.producer.publishes = true
      · simp only [toWait, nextWaker, if_pos hpub]
        exact ⟨h.wait.word, h.wait.count, fun r => (h.wait.covered r).store (p := ()) rfl⟩
      · simp only [toWait, nextWaker, hseq, if_neg hpub]
        exact h.wait
    · obtain ⟨-, hseq⟩ := System.step_producer_eq (fun a ha => hl ⟨a, ha⟩) hstep
      have hwaker : s.nextWaker l = s.waker := by
        cases l with
        | producer a => exact absurd ⟨a, rfl⟩ hl
        | attach | readSlot | reader | drop | die => rfl
      simp only [toWait, hwaker, hseq]
      exact h.wait
  -- a reader inside `wait` does not move its cursor
  · obtain ⟨pid, slot, c, hc, hidle, hcursor⟩ := h.target r cursor hr
    refine ⟨pid, slot, c, System.step_attached hstep hc ?_ ?_, hidle, hcursor⟩
    · rintro a rfl
      rw [of_decide_eq_true hmay] at hr
      cases hr
    · rintro rfl
      rw [of_decide_eq_true hmay] at hr
      cases hr
  · intro hloop
    by_cases hl : ∃ a, l = .producer a
    · obtain ⟨a, rfl⟩ := hl
      exact RingProducer.step_inRetryLoop (System.step_producer hstep) h.blocked hloop
    · obtain ⟨hprod, hseq⟩ := System.step_producer_eq (fun a ha => hl ⟨a, ha⟩) hstep
      simp only [hprod, hseq] at hloop ⊢
      exact h.blocked hloop

omit [DecidableEq ρ] [Inhabited ω] in
/-- A step of the wake-up protocol keeps the rest as it is. -/
theorem Inv.withWait {t : WaitSystem Unit ρ} (h : s.Inv cfg) (ht : t.Inv)
    (hseq : t.writeSeq = s.toWait.writeSeq)
    (htarget : ∀ r cursor, (t.consumers r).pc.target = some cursor → ∃ pid slot c,
      s.ring.readers r = .attached pid slot c ∧ c.pc = .idle ∧ c.cursor = cursor) :
    (s.withWait t).Inv cfg := by
  refine ⟨h.ring, h.registry, h.synced, ?_, htarget, h.blocked⟩
  rw [toWait_withWait hseq]
  exact ht

omit [DecidableEq ρ] [Inhabited ω] [Fintype ρ] in
/-- Who may wait is attached and between two calls. -/
theorem attached_of_mayWait {r : ρ} {a : WaitLabel} (h : s.mayWait r a = true) :
    ∃ pid slot c, s.ring.readers r = .attached pid slot c ∧ c.pc = .idle ∧
      ∀ cursor, a = .wait cursor → c.cursor = cursor := by
  unfold mayWait at h
  split at h
  · next pid slot c hr =>
    split at h
    · next cursor hpc =>
      rw [Bool.and_eq_true, beq_iff_eq] at h
      refine ⟨pid, slot, c, hr, hpc, ?_⟩
      rintro _ ⟨⟩
      exact h.2.symm
    · next hpc hne =>
      exact ⟨pid, slot, c, hr, hpc, fun cursor ha => absurd ha (hne cursor)⟩
    · cases h
  · cases h

theorem Inv.step {l : BlockingLabel ρ w ω} (h : s.Inv cfg) (ht : s.Timely l)
    (hstep : s.step cfg l = some s') : s'.Inv cfg := by
  cases l with
  | ring l =>
    simp only [BlockingSystem.step] at hstep
    split_ifs at hstep with hmay
    obtain ⟨ring, hring, rfl⟩ := Option.map_eq_some_iff.mp hstep
    exact h.ring_step hmay hring
  | wake =>
    obtain ⟨t, hwake, rfl⟩ := Option.map_eq_some_iff.mp hstep
    obtain ⟨hseq, htarget⟩ := WaitSystem.wakeStep_eq hwake
    exact h.withWait (h.wait.step (a := .wake ()) trivial hwake) hseq fun r cursor hr =>
      h.target r cursor (htarget r cursor hr)
  | wait r a =>
    simp only [BlockingSystem.step] at hstep
    split_ifs at hstep with hmay
    obtain ⟨t, hcons, rfl⟩ := Option.map_eq_some_iff.mp hstep
    have hinv := h.wait.step (a := .consumer r a) ht hcons
    obtain ⟨c, waiting, rfl, htarget⟩ := WaitSystem.consumerStep_eq hcons
    refine h.withWait hinv rfl fun j cursor hj => ?_
    by_cases hjr : j = r
    · subst hjr
      simp only [WaitSystem.put, Function.update_self] at hj
      rcases htarget cursor hj with hold | hnew
      · exact h.target j cursor hold
      · obtain ⟨pid, slot, c', hr, hidle, hcur⟩ := attached_of_mayWait hmay
        exact ⟨pid, slot, c', hr, hidle, hcur cursor hnew⟩
    · simp only [WaitSystem.put, Function.update_of_ne hjr] at hj
      exact h.target j cursor hj

omit [DecidableEq ρ] [Inhabited ω] [Fintype ρ] in
/-- A step inside `wait` leaves the ring and the producer alone. -/
theorem wait_frame [DecidableEq ρ] [Inhabited ω] {r : ρ} {a : WaitLabel}
    (hstep : s.step cfg (.wait r a) = some s') : s'.ring = s.ring ∧ s'.waker = s.waker := by
  simp only [BlockingSystem.step] at hstep
  split_ifs at hstep
  obtain ⟨t, hcons, rfl⟩ := Option.map_eq_some_iff.mp hstep
  obtain ⟨c, waiting, rfl, -⟩ := WaitSystem.consumerStep_eq hcons
  exact ⟨rfl, rfl⟩

omit [DecidableEq ρ] [Inhabited ω] in
/-- A reader whose registered cursor holds a blocked producer back does not sleep once the
producer's wake is over. -/
theorem Inv.not_asleep {r : ρ} {pid i : ℕ} {c : RingConsumer w ω} (h : s.Inv cfg)
    (hloop : s.ring.producer.inRetryLoop = true) (hidle : s.waker = .idle)
    (hr : s.ring.readers r = .attached pid (some i) c) (halive : s.ring.alive pid = true)
    (hback : (s.ring.mem.regs i).cursorSeq + cfg.cap.val ≤ s.ring.producer.seq) (cursor : ℕ) :
    (s.waits r).pc ≠ .asleep cursor := by
  intro hpc
  obtain ⟨pid', slot', c', hr', hcall, hcur⟩ := h.target r cursor (by rw [hpc]; rfl)
  rw [hr] at hr'
  cases hr'
  -- the reader is between two calls, so it waits for the cursor it registered
  have hsync := (h.synced r pid i c hr halive).2 (by simp only [RingConsumer.synced, hcall])
  have hpos := cfg.cap.pos
  have hle : cursor ≤ s.toWait.writeSeq := by
    change cursor ≤ s.ring.mem.writeSeq
    rw [h.blocked hloop]
    omega
  have hcovered := h.wait.covered r
  change s.toWait.Covered (s.waits r).pc at hcovered
  rw [hpc] at hcovered
  obtain ⟨_, hbusy⟩ := hcovered hle
  exact hbusy hidle

/-- **A blocked producer and a sleeping reader do not wait for each other.** In every state reached
by timely steps in which the producer is inside the retry loop of `wait_for_headroom`: a cursor
that holds it back is at most `write_seq`; and once its `publish_progress` is over, no live reader
whose registered cursor holds it back is asleep, nor does any step of that reader put it to
sleep. -/
theorem blocked_and_asleep_exclude {spinLimit : ρ → ℕ}
    (h : Transition.ReachesBy Timely (step cfg) (create w ω cfg spinLimit) s)
    (hloop : s.ring.producer.inRetryLoop = true) :
    (∀ cursor, cursor + cfg.cap.val ≤ s.ring.producer.seq → cursor ≤ s.ring.mem.writeSeq) ∧
    (∀ r pid i c, s.ring.readers r = .attached pid (some i) c → s.ring.alive pid = true →
      s.waker = .idle → (s.ring.mem.regs i).cursorSeq + cfg.cap.val ≤ s.ring.producer.seq →
      (∀ cursor, (s.waits r).pc ≠ .asleep cursor) ∧
      ∀ a s', s.Timely (.wait r a) → s.step cfg (.wait r a) = some s' →
        ∀ cursor, (s'.waits r).pc ≠ .asleep cursor) := by
  have hs : s.Inv cfg := h.invariant (fun hs ht hstep => hs.step ht hstep) (Inv.create cfg _)
  refine ⟨fun cursor hback => ?_, fun r pid i c hr halive hidle hback => ⟨?_, ?_⟩⟩
  · have hpos := cfg.cap.pos
    rw [hs.blocked hloop]
    omega
  · exact hs.not_asleep hloop hidle hr halive hback
  · intro a s' ht hstep
    obtain ⟨hring, hwaker⟩ := wait_frame hstep
    rw [← hring] at hloop hr halive hback
    rw [← hwaker] at hidle
    exact (hs.step ht hstep).not_asleep hloop hidle hr halive hback

/-- A lossless ring of one slot and one registered reader. -/
private def oneSlotOneReader : Config := ⟨⟨1, isPowerOfTwo_one⟩, 1, .losslessBackpressure⟩

/-- A reader registers at message `1`; the producer pushes it and blocks on the next one. -/
private def blockOnSecond : List (BlockingLabel Unit 1 ℕ) :=
  .ring (.attach () 1 .oldest) :: List.replicate 8 (.ring (.reader () .tick)) ++
    .ring (.producer (.call (.push fun _ => 7))) ::
    List.replicate 6 (.ring (.producer .tick)) ++ .ring (.producer (.word onlyWord)) ::
    List.replicate 3 (.ring (.producer .tick)) ++ .wake ::
    .ring (.producer (.call (.push fun _ => 8))) ::
    List.replicate 6 (.ring (.producer .tick)) ++ [.wake]

theorem blocked_and_asleep_exclude_second : ∃ (s : BlockingSystem Unit 1 ℕ) (c : RingConsumer 1 ℕ),
    Transition.ReachesBy Timely (step oneSlotOneReader) (create 1 ℕ oneSlotOneReader fun _ => 0) s ∧
    s.ring.producer.inRetryLoop = true ∧ s.ring.readers () = .attached 1 (some 0) c ∧
    s.waker = .idle ∧ (s.ring.mem.regs 0).cursorSeq + 1 ≤ s.ring.producer.seq ∧
    ∀ cursor, (s.waits ()).pc ≠ .asleep cursor := by
  obtain ⟨s, hs⟩ : ∃ s, Transition.run (step oneSlotOneReader)
    (create 1 ℕ oneSlotOneReader fun _ : Unit => 0) blockOnSecond = some s := ⟨_, rfl⟩
  have hrun : Transition.ReachesBy Timely (step oneSlotOneReader)
      (create 1 ℕ oneSlotOneReader fun _ => 0) s := by
    refine .append .refl hs fun l hl v => ?_
    cases l with
    | ring | wake => trivial
    | wait r a => simp [blockOnSecond] at hl
  have hloop : s.ring.producer.inRetryLoop = true := by
    cases hs
    rfl
  obtain ⟨c, hc⟩ : ∃ c, s.ring.readers () = .attached 1 (some 0) c := by
    cases hs
    exact ⟨_, rfl⟩
  have hidle : s.waker = .idle := by
    cases hs
    rfl
  have halive : s.ring.alive 1 = true := by
    cases hs
    rfl
  have hback : (s.ring.mem.regs 0).cursorSeq + 1 ≤ s.ring.producer.seq := by
    cases hs
    decide
  refine ⟨s, c, hrun, hloop, hc, hidle, hback, ?_⟩
  exact ((blocked_and_asleep_exclude hrun hloop).2 () 1 0 c hc halive hidle hback).1

end BlockingSystem

end Ringfire
