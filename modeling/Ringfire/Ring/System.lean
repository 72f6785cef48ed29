import Ringfire.Foundation.Transition
import Ringfire.Ring.Invariant
import Ringfire.Ring.View

/-!
# The single-producer ring as a system

One `RingProducer` and any number of readers, each taking one memory access at a time in any
order. A reader attaches (`attach_with_options`: load `write_seq`, resolve the start position,
register, re-check), receives and jumps as a `RingConsumer`, and drops its registration; or it
runs a single `read_slot`. Processes may die at any moment: their threads stop, their
registrations stay behind. A process id is not used again after its process died.

## Main definitions

* `System.step`: one memory access of one thread
* `System.view`: what the readers see of a system

## Main results

* `System.Inv.reaches`: the slots are truthful and every reader's knowledge is right, in every
  reachable state
* `System.slotReader_item`: `read_slot` returns only complete messages
-/

namespace Ringfire

/-- How the ring was created. -/
structure Config where
  cap : Capacity
  maxReaders : ℕ
  flowControl : FlowControl

/-- A reader of the ring. -/
inductive Reader (w : ℕ) (ω : Type) where
  | absent
  | opening (pid : ℕ) (start : StartPosition)
  | registering (pid cursor lappedTotal : ℕ) (pc : RegisterPc)
  | attached (pid : ℕ) (slot : Option ℕ) (c : RingConsumer w ω)
  | dropping (pid slot : ℕ) (pc : DropPc)
  | gone
  | slotReader (want : ℕ) (rd : ReadPc w ω)

namespace Reader

variable {w : ℕ} {ω : Type}

/-- The reader's process has not died. -/
def alive (isAlive : ℕ → Bool) : Reader w ω → Bool
  | opening pid _ | registering pid _ _ _ | attached pid _ _ | dropping pid _ _ => isAlive pid
  | _ => true

theorem alive_of_die {isAlive : ℕ → Bool} {pid : ℕ} {x : Reader w ω}
    (h : x.alive (Function.update isAlive pid false) = true) : x.alive isAlive = true := by
  cases x with
  | opening | registering | attached | dropping => exact alive_before_die h
  | absent | gone | slotReader => rfl

/-- `attach_with_options` once the start position is resolved. -/
def attachAt (cfg : Config) (pid cursor lappedTotal : ℕ) : Reader w ω :=
  if cfg.maxReaders = 0 then
    attached pid none (RingConsumer.attach false false false cursor lappedTotal)
  else registering pid cursor lappedTotal (.scan 0)

/-- What happens in the registry slot when a consumer stores its cursor. -/
def storeCursor (regs : ℕ → ReaderSlot) : Option ℕ → Option ℕ → ℕ → ReaderSlot
  | some i, some cursor => updateCursor regs i cursor
  | _, _ => regs

/-- One memory access of a reader. -/
def step [Inhabited ω] (cfg : Config) (isAlive : ℕ → Bool) (m : Shared w ω) :
    Reader w ω → ConsumerLabel w → Option (Reader w ω × (ℕ → ReaderSlot))
  | opening pid start, .tick =>
    -- `write_seq` is loaded once, and the position is computed from it
    if (resolveStart cfg.cap m.writeSeq start).1 ≤ u64Max then
      some (attachAt cfg pid (resolveStart cfg.cap m.writeSeq start).1
        (resolveStart cfg.cap m.writeSeq start).2, m.regs)
    else none
  | registering pid cursor lappedTotal (.registered i), .tick =>
    some (attached pid (some i) (RingConsumer.attach false false true cursor lappedTotal), m.regs)
  | registering pid cursor lappedTotal .full, .tick =>
    -- A lossless ring cannot protect an unregistered reader and refuses it.
    match cfg.flowControl with
    | .losslessBackpressure => some (gone, m.regs)
    | .lossyLatestWins =>
      some (attached pid none (RingConsumer.attach false false false cursor lappedTotal), m.regs)
  | registering pid cursor lappedTotal pc, .tick =>
    (pc.step cfg.maxReaders isAlive pid cursor m.regs).map fun (pc', regs') =>
      (registering pid cursor lappedTotal pc', regs')
  | attached pid slot c, a =>
    (c.step cfg.cap m.slots m.writeSeq a).map fun (c', stored) =>
      (attached pid slot c', storeCursor m.regs slot stored)
  | dropping _ _ .released, .tick => some (gone, m.regs)
  | dropping pid i pc, .tick =>
    (pc.step pid i m.regs).map fun (pc', regs') => (dropping pid i pc', regs')
  -- a thread that reads one slot and is no consumer
  | slotReader want rd, .word i =>
    (rd.step (m.slots (slotIndex cfg.cap want)) want (some i)).map (slotReader want ·, m.regs)
  | slotReader want rd, .tick =>
    (rd.step (m.slots (slotIndex cfg.cap want)) want none).map (slotReader want ·, m.regs)
  | _, _ => none

/-- Dropping a consumer between two calls. -/
def drop : Reader w ω → Option (Reader w ω)
  | attached pid (some i) c =>
    match c.pc with
    | .idle => some (dropping pid i .deactivate)
    | _ => none
  | attached _ none c =>
    match c.pc with
    | .idle => some gone
    | _ => none
  | _ => none

end Reader

/-- The producer, the readers and the memory they share. -/
structure System (ρ : Type) (w : ℕ) (ω : Type) where
  mem : Shared w ω
  alive : ℕ → Bool
  producer : RingProducer w ω
  readers : ρ → Reader w ω

/-- Who moves. -/
inductive Label (ρ : Type) (w : ℕ) (ω : Type) where
  | producer (a : ProducerLabel w ω)
  | attach (r : ρ) (pid : ℕ) (start : StartPosition)
  | readSlot (r : ρ) (want : ℕ)
  | reader (r : ρ) (a : ConsumerLabel w)
  | drop (r : ρ)
  | die (pid : ℕ)

namespace System

variable {ρ : Type} {w : ℕ} {ω : Type}

/-- A freshly created ring and no reader. -/
def create [Inhabited ω] (ρ : Type) (w : ℕ) (cfg : Config) : System ρ w ω where
  mem := ⟨fun _ => ⟨0, fun _ => default⟩, 0, fun _ => .empty⟩
  alive := fun _ => true
  producer := .create w ω cfg.flowControl
  readers := fun _ => .absent

/-- One memory access of one thread. -/
def step [DecidableEq ρ] [Inhabited ω] (cfg : Config) (s : System ρ w ω) :
    Label ρ w ω → Option (System ρ w ω)
  | .producer a =>
    match s.producer.step cfg.cap cfg.maxReaders s.alive s.mem a with
    | some (mem, producer) => some { s with mem := mem, producer := producer }
    | none => none
  | .attach r pid start =>
    match s.readers r with
    | .absent =>
      -- only a running process attaches, and no process has the number 0
      if pid ≠ 0 ∧ s.alive pid then
        some { s with readers := Function.update s.readers r (.opening pid start) }
      else none
    | _ => none
  | .readSlot r want =>
    match s.readers r with
    | .absent => some { s with readers := Function.update s.readers r (.slotReader want .load) }
    | _ => none
  | .reader r a =>
    -- the threads of a dead process do not move
    if (s.readers r).alive s.alive then
      match (s.readers r).step cfg s.alive s.mem a with
      | some (reader, regs) =>
        some { s with
          mem := { s.mem with regs := regs }
          readers := Function.update s.readers r reader }
      | none => none
    else none
  | .drop r =>
    if (s.readers r).alive s.alive then
      match (s.readers r).drop with
      | some reader => some { s with readers := Function.update s.readers r reader }
      | none => none
    else none
  -- the slots of the process stay as they are until somebody reclaims them
  | .die pid => some { s with alive := Function.update s.alive pid false }

/-- What the readers see: the memory, and the messages stored so far. -/
def view (s : System ρ w ω) : View w ω where
  slots := s.mem.slots
  writeSeq := s.mem.writeSeq
  stored k := 1 ≤ k ∧ k < s.producer.seq
  top _ := s.producer.seq - 1
  message := s.producer.message

/-! ## What a step does -/

variable [Inhabited ω] {cfg : Config} {s s' : System ρ w ω}

/-- What reader `r` does in a step labelled `l`: it becomes `x` and leaves `regs` in the
registry. -/
inductive ReaderMove (cfg : Config) (s : System ρ w ω) (l : Label ρ w ω) (r : ρ) (x : Reader w ω)
    (regs : ℕ → ReaderSlot) : Prop where
  | attach (pid : ℕ) (start : StartPosition) (absent : s.readers r = .absent) (pid_ne : pid ≠ 0)
      (alive : s.alive pid = true) (next : x = .opening pid start) (same : regs = s.mem.regs)
  | readSlot (want : ℕ) (absent : s.readers r = .absent) (next : x = .slotReader want .load)
      (same : regs = s.mem.regs)
  | step (a : ConsumerLabel w) (label : l = .reader r a) (alive : (s.readers r).alive s.alive = true)
      (next : (s.readers r).step cfg s.alive s.mem a = some (x, regs))
  | drop (alive : (s.readers r).alive s.alive = true) (next : (s.readers r).drop = some x)
      (same : regs = s.mem.regs)

/-- The steps of the system. -/
inductive Move [DecidableEq ρ] (cfg : Config) (s : System ρ w ω) (l : Label ρ w ω)
    (s' : System ρ w ω) : Prop where
  | producer (a : ProducerLabel w ω) (mem : Shared w ω) (producer : RingProducer w ω)
      (h : s.producer.step cfg.cap cfg.maxReaders s.alive s.mem a = some (mem, producer))
      (next : s' = { s with mem := mem, producer := producer })
  | reader (r : ρ) (x : Reader w ω) (regs : ℕ → ReaderSlot) (h : ReaderMove cfg s l r x regs)
      (next : s' = { s with
        mem := { s.mem with regs := regs }, readers := Function.update s.readers r x })
  | die (pid : ℕ) (next : s' = { s with alive := Function.update s.alive pid false })

theorem step_move [DecidableEq ρ] {a : Label ρ w ω} (h : s.step cfg a = some s') : Move cfg s a s' := by
  cases a with
  | producer a =>
    simp only [step] at h
    split at h
    · next mem producer hp =>
      cases h
      exact .producer a mem producer hp rfl
    · cases h
  | attach r pid start =>
    simp only [step] at h
    split at h
    · next habs =>
      split_ifs at h with hp
      cases h
      exact .reader r _ s.mem.regs (.attach pid start habs hp.1 hp.2 rfl rfl) rfl
    · cases h
  | readSlot r want =>
    simp only [step] at h
    split at h
    · next habs =>
      cases h
      exact .reader r _ s.mem.regs (.readSlot want habs rfl rfl) rfl
    · cases h
  | reader r a =>
    simp only [step] at h
    split_ifs at h with halive
    split at h
    · next x regs hx =>
      cases h
      exact .reader r x regs (.step a rfl halive hx) rfl
    · cases h
  | drop r =>
    simp only [step] at h
    split_ifs at h with halive
    split at h
    · next x hx =>
      cases h
      exact .reader r x s.mem.regs (.drop halive hx rfl) rfl
    · cases h
  | die pid =>
    cases h
    exact .die pid rfl

theorem step_producer [DecidableEq ρ] {a : ProducerLabel w ω}
    (hstep : s.step cfg (.producer a) = some s') :
    s.producer.step cfg.cap cfg.maxReaders s.alive s.mem a = some (s'.mem, s'.producer) := by
  simp only [System.step] at hstep
  split at hstep <;> cases hstep
  next hp => exact hp

/-- Only the producer's steps change it, or `write_seq`. -/
theorem step_producer_eq [DecidableEq ρ] {l : Label ρ w ω} (hl : ∀ a, l ≠ .producer a)
    (hstep : s.step cfg l = some s') :
    s'.producer = s.producer ∧ s'.mem.writeSeq = s.mem.writeSeq := by
  cases l with
  | producer a => exact absurd rfl (hl a)
  | attach r pid start =>
    simp only [System.step] at hstep
    split at hstep
    · split_ifs at hstep
      cases hstep
      exact ⟨rfl, rfl⟩
    · cases hstep
  | readSlot r want =>
    simp only [System.step] at hstep
    split at hstep <;> cases hstep
    exact ⟨rfl, rfl⟩
  | reader r a =>
    simp only [System.step] at hstep
    split_ifs at hstep
    split at hstep <;> cases hstep
    exact ⟨rfl, rfl⟩
  | drop r =>
    simp only [System.step] at hstep
    split_ifs at hstep
    split at hstep <;> cases hstep
    exact ⟨rfl, rfl⟩
  | die pid =>
    cases hstep
    exact ⟨rfl, rfl⟩

/-! ## The invariant -/

/-- What holds of a reader. -/
def ReaderInv (cap : Capacity) (v : View w ω) : Reader w ω → Prop
  | .registering _ cursor _ _ => 1 ≤ cursor
  | .attached _ _ c => c.Inv cap v
  | .slotReader want rd => 1 ≤ want → want ≠ slotWriting →
      rd.Sound v.message (v.top (slotIndex cap want)) (v.slots (slotIndex cap want)) want
  | _ => True

/-- The slots are truthful and every reader's knowledge is right. -/
structure Inv (cfg : Config) (s : System ρ w ω) : Prop where
  ring : Consistent cfg.cap s.mem s.producer
  published : s.producer.settled = true → s.mem.writeSeq = s.producer.seq - 1
  readers : ∀ r, ReaderInv cfg.cap s.view (s.readers r)

omit [Inhabited ω] in
theorem view_truthful (h : Consistent cfg.cap s.mem s.producer) : s.view.Truthful where
  writeSeq := by
    have hlt := h.writeSeq
    rcases Nat.eq_zero_or_pos s.mem.writeSeq with h0 | hpos
    · exact .inl h0
    · exact .inr ⟨hpos, hlt⟩
  word i := by
    refine (h.word i).imp_right (Or.imp_right fun hh => ⟨⟨hh.one_le, hh.lt⟩, ?_, hh.message⟩)
    have hlt := hh.lt
    exact Nat.le_sub_one_of_lt hlt

omit [Inhabited ω] in
theorem view_evolves {mem : Shared w ω} {producer : RingProducer w ω}
    (h : Consistent cfg.cap s.mem s.producer)
    (he : RingProducer.Effect cfg.cap s.mem s.producer mem producer) :
    s.view.Evolves { s with mem := mem, producer := producer }.view := by
  obtain ⟨hseq, items, hpushed⟩ := he.mono
  exact ⟨fun k hk => ⟨hk.1, hk.2.trans_le hseq⟩, fun _ => Nat.sub_le_sub_right hseq 1,
    fun k d hd => RingProducer.message_append hpushed hd, h.evolves he⟩

omit [Inhabited ω] in
theorem ReaderInv.evolves {cap : Capacity} {v v' : View w ω} {x : Reader w ω}
    (h : ReaderInv cap v x) (he : v.Evolves v') : ReaderInv cap v' x := by
  cases x with
  | registering => exact h
  | attached => exact RingConsumer.Inv.evolves h he
  | slotReader want rd =>
    exact fun hpos hw => (h hpos hw).evolves hw (he.top _) (he.message _) (he.slots _)
  | absent | opening | dropping | gone => trivial

/-- A reader's own steps keep its knowledge right. -/
theorem ReaderInv.step {isAlive : ℕ → Bool} {v : View w ω} {m : Shared w ω} {x x' : Reader w ω}
    {a : ConsumerLabel w} {regs : ℕ → ReaderSlot} (hv : v.Truthful) (hslots : v.slots = m.slots)
    (hws : v.writeSeq = m.writeSeq) (h : ReaderInv cfg.cap v x)
    (hstep : x.step cfg isAlive m a = some (x', regs)) : ReaderInv cfg.cap v x' := by
  unfold Reader.step at hstep
  split at hstep
  -- a reader starts at a sequence that is at least one
  case h_1 pid start =>
    split_ifs at hstep
    cases hstep
    have hpos := one_le_resolveStart cfg.cap m.writeSeq start
    unfold Reader.attachAt
    split_ifs
    · exact .attach hpos
    · exact hpos
  case h_2 => cases hstep; exact .attach h
  case h_3 =>
    split at hstep <;> cases hstep
    · trivial
    · exact .attach h
  case h_4 =>
    obtain ⟨y, hy, he⟩ := Option.map_eq_some_iff.mp hstep
    cases he
    exact h
  -- attached: the step of the consumer
  case h_5 a pid slot c =>
    obtain ⟨⟨c', stored⟩, hy, he⟩ := Option.map_eq_some_iff.mp hstep
    cases he
    rw [← hslots, ← hws] at hy
    exact RingConsumer.Inv.step hv h hy
  case h_6 => cases hstep; trivial
  case h_7 =>
    obtain ⟨y, hy, he⟩ := Option.map_eq_some_iff.mp hstep
    cases he
    trivial
  -- inside `read_slot`: a copy is of the message or will be thrown away
  case h_8 want rd i | h_9 want rd =>
    obtain ⟨rd', hy, he⟩ := Option.map_eq_some_iff.mp hstep
    cases he
    rw [← hslots] at hy
    exact fun hpos hw => (h hpos hw).step (fun heq => hv.slot hpos hw heq) hy
  case h_10 => cases hstep

omit [Inhabited ω] in
theorem ReaderInv.drop {cap : Capacity} {v : View w ω} {x x' : Reader w ω}
    (hdrop : x.drop = some x') : ReaderInv cap v x' := by
  unfold Reader.drop at hdrop
  split at hdrop
  · split at hdrop <;> cases hdrop
    trivial
  · split at hdrop <;> cases hdrop
    trivial
  · cases hdrop

theorem ReaderMove.inv {l : Label ρ w ω} {r : ρ} {x : Reader w ω} {regs : ℕ → ReaderSlot}
    (h : s.Inv cfg) (hm : ReaderMove cfg s l r x regs) : ReaderInv cfg.cap s.view x := by
  cases hm with
  | attach pid start absent pid_ne alive next => rw [next]; trivial
  | readSlot want absent next => rw [next]; exact fun _ _ => trivial
  | step a label alive next => exact (h.readers r).step (view_truthful h.ring) rfl rfl next
  | drop alive next => exact .drop next

/-- Once attached, a reader stays attached or is dropped for good. -/
theorem ReaderMove.attached {l : Label ρ w ω} {r : ρ} {x : Reader w ω} {regs : ℕ → ReaderSlot}
    {pid : ℕ} {slot : Option ℕ} {c : RingConsumer w ω} (hr : s.readers r = .attached pid slot c)
    (hm : ReaderMove cfg s l r x regs) :
    (∃ a c' stored, l = .reader r a ∧ s.alive pid = true ∧
      c.step cfg.cap s.mem.slots s.mem.writeSeq a = some (c', stored) ∧
      x = .attached pid slot c' ∧ regs = Reader.storeCursor s.mem.regs slot stored) ∨
    (regs = s.mem.regs ∧
      ((∃ i, slot = some i ∧ x = .dropping pid i .deactivate) ∨ (slot = none ∧ x = .gone))) := by
  cases hm with
  | attach _ _ absent | readSlot _ absent =>
    rw [hr] at absent
    cases absent
  | step a label alive next =>
    rw [hr] at next alive
    simp only [Reader.step] at next
    obtain ⟨⟨c', stored⟩, hc, he⟩ := Option.map_eq_some_iff.mp next
    cases he
    exact .inl ⟨a, c', stored, label, alive, hc, rfl, rfl⟩
  | drop alive next same =>
    rw [hr] at next
    refine .inr ⟨same, ?_⟩
    cases slot with
    | none =>
      simp only [Reader.drop] at next
      split at next <;> cases next
      exact .inr ⟨rfl, rfl⟩
    | some i =>
      simp only [Reader.drop] at next
      split at next <;> cases next
      exact .inl ⟨i, rfl, rfl⟩

variable [DecidableEq ρ]

theorem Inv.step {a : Label ρ w ω} (h : s.Inv cfg) (hstep : s.step cfg a = some s') :
    s'.Inv cfg := by
  cases step_move hstep with
  | producer a mem producer hp next =>
    subst next
    have he := RingProducer.step_effect hp
    exact ⟨h.ring.step he, RingProducer.step_settled hp h.published,
      fun r => (h.readers r).evolves (view_evolves h.ring he)⟩
  | reader r x regs hm next =>
    subst next
    refine ⟨h.ring.setRegs regs, h.published, fun r' => ?_⟩
    rcases eq_or_ne r' r with rfl | hne
    · simp only [Function.update_self]
      exact (hm.inv h :)
    · simp only [Function.update_of_ne hne]
      exact h.readers r'
  | die pid next =>
    subst next
    exact ⟨h.ring, h.published, h.readers⟩

omit [DecidableEq ρ] in
theorem Inv.create (ρ : Type) (w : ℕ) (cfg : Config) : (create (ω := ω) ρ w cfg).Inv cfg :=
  ⟨.create cfg.flowControl _ _, fun _ => rfl, fun _ => trivial⟩

/-- **The invariant holds in every reachable state.** -/
theorem Inv.reaches (h : Transition.Reaches (System.step cfg) (System.create ρ w cfg) s) :
    s.Inv cfg :=
  h.invariant (fun hs hstep => hs.step hstep) (Inv.create ρ w cfg)

/-- **`read_slot` never returns a torn message.** In every interleaving of the producer's calls
with any number of readers, what `read_slot(want)` returns is the `want`-th message pushed. -/
theorem slotReader_item (h : Transition.Reaches (step cfg) (create ρ w cfg) s) {r : ρ} {want : ℕ}
    {d : Payload w ω} (hpos : 1 ≤ want) (hwant : want < u64Max)
    (hr : s.readers r = .slotReader want (.done (.item d))) :
    s.producer.pushed[want - 1]? = some d := by
  have hinv := (Inv.reaches h).readers r
  rw [hr] at hinv
  exact hinv hpos hwant.ne d rfl

/-- A lossy ring of one slot. -/
def oneSlot : Config := ⟨⟨1, isPowerOfTwo_one⟩, 0, .lossyLatestWins⟩

/-- One message pushed, then read. -/
theorem slotReader_item_first :
    ∃ (s : System Unit 1 ℕ) (d : Payload 1 ℕ),
      Transition.Reaches (step oneSlot) (create Unit 1 oneSlot) s ∧
        s.readers () = .slotReader 1 (.done (.item d)) ∧ d 0 = 7 ∧
        s.producer.pushed[1 - 1]? = some d := by
  have hrun : Transition.Reaches (step oneSlot) (create Unit 1 oneSlot) _ :=
    ⟨[.producer (.call (.push fun _ => 7)), .producer .tick, .producer .tick,
      .producer (.word 0), .producer .tick, .readSlot () 1, .reader () .tick,
      .reader () (.word 0), .reader () .tick], rfl⟩
  refine ⟨_, Function.update (fun _ => 0) 0 7, hrun, ?hr, ?_, slotReader_item hrun ?_ ?_ ?hr⟩
  · rfl
  · rfl
  · decide
  · decide

/-- Sequence `0` is the word of an unwritten slot: `read_slot(0)` on a fresh ring returns the
unwritten payload although no message was pushed. -/
theorem slotReader_zero :
    ∃ (s : System Unit 1 ℕ) (d : Payload 1 ℕ),
      Transition.Reaches (step oneSlot) (create Unit 1 oneSlot) s ∧
        s.readers () = .slotReader 0 (.done (.item d)) ∧ 0 < u64Max ∧ s.producer.pushed = [] :=
  ⟨_, _, ⟨[.readSlot () 0, .reader () .tick, .reader () (.word 0), .reader () .tick], rfl⟩,
    rfl, by decide, rfl⟩

end System

end Ringfire
