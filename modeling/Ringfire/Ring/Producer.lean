import Ringfire.Ring.Registry
import Ringfire.Ring.Slot

/-!
# The single producer

`RingProducer` of `spmc.rs`, cut into its memory accesses. A message is written by marking its
slot, storing the payload words in any order and storing its sequence; `write_seq` follows at the
end of the call, so a batch becomes readable slot by slot before it is published. On a lossless
ring every message first passes the gate: `seq` may be written while it is below the cached
`gateLimit`, and `refresh_gate` recomputes that limit by scanning the registry one load at a
time.

## Main definitions

* `RingProducer.step`: one memory access, or the start of a call
* `RingProducer.gate`: the end of `refresh_gate`, and where its caller goes on
* `RingProducer.Moves`: the steps, one constructor for each access and outcome

## Main results

* `RingProducer.step_moves`: there are no other steps
* `RingProducer.step_effect`: what one step does to the slots, to `write_seq` and to `seq`
-/

namespace Ringfire

/-- Flow control policy for publishing. -/
inductive FlowControl where
  | lossyLatestWins
  | losslessBackpressure
  deriving DecidableEq

/-- The memory the producer shares with the readers. -/
structure Shared (w : ℕ) (ω : Type) where
  slots : ℕ → Slot w ω
  writeSeq : ℕ
  regs : ℕ → ReaderSlot

/-- Who called `refresh_gate`, and the messages waiting behind it. -/
inductive GateReturn (τ : Type) where
  | headroom (item : τ) (rest : List τ)
  | retry (item : τ) (rest : List τ) (spins : ℕ)
  | tryPush (item : τ)
  | tryPushAgain (item : τ)

/-- Who called `prune_dead_readers`. -/
inductive PruneReturn (τ : Type) where
  | retry (item : τ) (rest : List τ) (spins : ℕ)
  | tryPush (item : τ)

/-- Where the producer stands. The list is what is left of the call's batch. -/
inductive ProducerPc (w : ℕ) (ω : Type) where
  | idle
  | entry (todo : List (Payload w ω))
  | scanActive (k : GateReturn (Payload w ω)) (i : ℕ) (min : Option ℕ)
  | scanPid (k : GateReturn (Payload w ω)) (i : ℕ) (min : Option ℕ)
  | scanCursor (k : GateReturn (Payload w ω)) (i : ℕ) (min : Option ℕ)
  | blockPublish (item : Payload w ω) (rest : List (Payload w ω))
  | blocked (item : Payload w ω) (rest : List (Payload w ω)) (spins : ℕ)
  | pruneLoad (k : PruneReturn (Payload w ω)) (i pruned : ℕ)
  | pruneReclaim (k : PruneReturn (Payload w ω)) (i pid pruned : ℕ)
  | mark (item : Payload w ω) (rest : List (Payload w ω))
  | copy (item : Payload w ω) (left : Finset (Fin w)) (rest : List (Payload w ω))
  | publish

/-- The producer's own state. -/
structure RingProducer (w : ℕ) (ω : Type) where
  seq : ℕ
  gateLimit : ℕ
  blockedPolls : ℕ
  flowControl : FlowControl
  /-- Result of the last `try_push`: `false` is `BackpressureBufferFull`. -/
  tryResult : Option Bool
  pc : ProducerPc w ω
  /-- The messages pushed so far, in the order of the calls: message `k` is the `k`-th. -/
  pushed : List (Payload w ω)

/-- A producer as `create_with_options` returns it. -/
def RingProducer.create (w : ℕ) (ω : Type) (flowControl : FlowControl) : RingProducer w ω :=
  ⟨1, 0, 0, flowControl, none, .idle, []⟩

/-- The calls that publish. -/
inductive ProducerCall (τ : Type) where
  | push (item : τ)
  | tryPush (item : τ)
  | pushBatch (items : List τ)

/-- A producer's step: the start of a call, a payload word, or whatever comes next. -/
inductive ProducerLabel (w : ℕ) (ω : Type) where
  | call (c : ProducerCall (Payload w ω))
  | word (i : Fin w)
  | tick

namespace RingProducer

variable {w : ℕ} {ω : Type}

/-- Whether the next message has to pass the gate first. -/
def gated (p : RingProducer w ω) : Bool :=
  p.flowControl = .losslessBackpressure ∧ p.gateLimit ≤ p.seq

/-- The minimum `min_cursor` keeps while it scans. -/
def minSeq (min : Option ℕ) (cursor : ℕ) : ℕ := min.elim cursor (Nat.min · cursor)

/-- A cursor loaded later does not raise the minimum. -/
theorem minSeq_le {min : Option ℕ} {k cursor : ℕ} (h : ∃ m, min = some m ∧ m ≤ k) :
    minSeq min cursor ≤ k := by
  obtain ⟨m, rfl, hm⟩ := h
  exact (Nat.min_le_left m cursor).trans hm

theorem minSeq_le_right (min : Option ℕ) (cursor : ℕ) : minSeq min cursor ≤ cursor := by
  cases min with
  | none => exact le_refl _
  | some m => exact Nat.min_le_right m cursor

/-- The limit `refresh_gate` computes from the slowest cursor it saw: half a ring ahead at most,
so that readers registering later are picked up. -/
def limit (cap : Capacity) (seq : ℕ) (min : Option ℕ) : ℕ :=
  match min with
  | some m => Nat.min (m + cap.val) (seq + Nat.max (cap.val / 2) 1)
  | none => seq + Nat.max (cap.val / 2) 1

/-- The additions in `refresh_gate` stay within `u64`. A run of the producer ends where they do not;
`RingProducer.refreshGate` has the sum of a release build, which wraps. -/
def gateFits (cap : Capacity) (seq : ℕ) (min : Option ℕ) : Prop :=
  seq + Nat.max (cap.val / 2) 1 ≤ u64Max ∧ ∀ m, min = some m → m + cap.val ≤ u64Max

instance (cap : Capacity) (seq : ℕ) (min : Option ℕ) : Decidable (gateFits cap seq min) :=
  inferInstanceAs (Decidable (_ ∧ ∀ m, min = some m → m + cap.val ≤ u64Max))

/-- A call goes on to write `items`. `push(item)` is a batch of one: both write, then publish. -/
def accept (p : RingProducer w ω) (items : List (Payload w ω)) : RingProducer w ω :=
  { p with pc := .entry items, pushed := p.pushed ++ items }

/-- The start of a call. -/
def start (p : RingProducer w ω) : ProducerCall (Payload w ω) → RingProducer w ω
  | .push item => p.accept [item]
  | .pushBatch [] => p
  | .pushBatch (item :: rest) => p.accept (item :: rest)
  | .tryPush item =>
    if p.gated then { p with pc := .scanActive (.tryPush item) 0 none }
    else { p with tryResult := some true }.accept [item]

/-- The top of the loop over a batch: publish at its end, otherwise pass the gate or write. -/
def enter (maxReaders : ℕ) (p : RingProducer w ω) : List (Payload w ω) → RingProducer w ω
  | [] => { p with pc := .publish }
  | item :: rest =>
    if p.gated ∧ maxReaders ≠ 0 then { p with pc := .scanActive (.headroom item rest) 0 none }
    else { p with pc := .mark item rest }

/-- The end of `refresh_gate`: the limit is cached, and its caller goes on. -/
def gate (cap : Capacity) (p : RingProducer w ω) (min : Option ℕ) :
    GateReturn (Payload w ω) → RingProducer w ω
  -- `wait_for_headroom` publishes what is written before it loops
  | .headroom item rest =>
    if p.seq < limit cap p.seq min then
      { p with gateLimit := limit cap p.seq min, pc := .mark item rest }
    else { p with gateLimit := limit cap p.seq min, pc := .blockPublish item rest }
  | .retry item rest spins =>
    if p.seq < limit cap p.seq min then
      { p with gateLimit := limit cap p.seq min, pc := .mark item rest }
    else { p with gateLimit := limit cap p.seq min, pc := .blocked item rest spins }
  | .tryPush item =>
    if p.seq < limit cap p.seq min then
      { p with gateLimit := limit cap p.seq min, tryResult := some true }.accept [item]
    -- every 1024th refusal prunes the registry and tries once more
    else if (p.blockedPolls + 1) % 2 ^ 32 % 1024 = 0 then
      { p with gateLimit := limit cap p.seq min, blockedPolls := (p.blockedPolls + 1) % 2 ^ 32,
               pc := .pruneLoad (.tryPush item) 0 0 }
    else
      { p with gateLimit := limit cap p.seq min, blockedPolls := (p.blockedPolls + 1) % 2 ^ 32,
               pc := .idle, tryResult := some false }
  | .tryPushAgain item =>
    if p.seq < limit cap p.seq min then
      { p with gateLimit := limit cap p.seq min, tryResult := some true }.accept [item]
    else { p with gateLimit := limit cap p.seq min, pc := .idle, tryResult := some false }

/-- The end of `prune_dead_readers`. -/
def pruned (p : RingProducer w ω) (count : ℕ) : PruneReturn (Payload w ω) → RingProducer w ω
  | .retry item rest spins => { p with pc := .scanActive (.retry item rest spins) 0 none }
  -- `prune_dead_readers() > 0` is checked before the second `refresh_gate`
  | .tryPush item =>
    if 0 < count then { p with pc := .scanActive (.tryPushAgain item) 0 none }
    else { p with pc := .idle, tryResult := some false }

/-- One turn of the retry loop of `wait_for_headroom`: dead readers are pruned once it has spun
for a while. -/
def retry (p : RingProducer w ω) (item : Payload w ω) (rest : List (Payload w ω)) (spins : ℕ) :
    RingProducer w ω :=
  if Nat.min (spins + 1) (2 ^ 32 - 1) < 1000 then
    { p with pc := .scanActive (.retry item rest (Nat.min (spins + 1) (2 ^ 32 - 1))) 0 none }
  else { p with pc := .pruneLoad (.retry item rest (Nat.min (spins + 1) (2 ^ 32 - 1))) 0 0 }

/-- One memory access of the producer, over a registry of `maxReaders` slots. -/
def step (cap : Capacity) (maxReaders : ℕ) (alive : ℕ → Bool) (m : Shared w ω)
    (p : RingProducer w ω) (a : ProducerLabel w ω) : Option (Shared w ω × RingProducer w ω) :=
  match p.pc, a with
  | .idle, .call c => some (m, p.start c)
  | .entry todo, .tick => some (m, p.enter maxReaders todo)
  -- `min_cursor`: `active`, `pid` and `cursor_seq` of one registry slot after the other
  | .scanActive k i min, .tick =>
    if i < maxReaders then
      if (m.regs i).active = 1 then some (m, { p with pc := .scanPid k i min })
      else some (m, { p with pc := .scanActive k (i + 1) min })
    else if gateFits cap p.seq min then some (m, p.gate cap min k)
    else none
  | .scanPid k i min, .tick =>
    if (m.regs i).pid ≠ 0 then some (m, { p with pc := .scanCursor k i min })
    else some (m, { p with pc := .scanActive k (i + 1) min })
  | .scanCursor k i min, .tick =>
    some (m, { p with pc := .scanActive k (i + 1) (some (minSeq min (m.regs i).cursorSeq)) })
  -- `wait_for_headroom`: publish what is written, then scan until there is room
  | .blockPublish item rest, .tick =>
    some ({ m with writeSeq := p.seq - 1 }, { p with pc := .blocked item rest 0 })
  | .blocked item rest spins, .tick => some (m, p.retry item rest spins)
  -- `prune_dead_readers`: a process that is gone loses its slot by compare and swap on `pid`
  | .pruneLoad k i n, .tick =>
    if i < maxReaders then
      if (m.regs i).pid ≠ 0 ∧ alive (m.regs i).pid = false then
        some (m, { p with pc := .pruneReclaim k i (m.regs i).pid n })
      else some (m, { p with pc := .pruneLoad k (i + 1) n })
    else some (m, p.pruned n k)
  | .pruneReclaim k i pid n, .tick =>
    some ({ m with regs := (reclaim m.regs i pid).2 },
      { p with pc := .pruneLoad k (i + 1) (if (reclaim m.regs i pid).1 then n + 1 else n) })
  -- `write_slot`: the mark, the words in any order, the sequence
  | .mark item rest, .tick =>
    some ({ m with slots := storeSeq m.slots (slotIndex cap p.seq) slotWriting },
      { p with pc := .copy item Finset.univ rest })
  | .copy item left rest, .word i =>
    if i ∈ left then
      some ({ m with slots := storeWord m.slots (slotIndex cap p.seq) i (item i) },
        { p with pc := .copy item (left.erase i) rest })
    else none
  | .copy _ left rest, .tick =>
    if left = ∅ ∧ p.seq + 1 ≤ u64Max then
      some ({ m with slots := storeSeq m.slots (slotIndex cap p.seq) p.seq },
        { p with seq := p.seq + 1, pc := .entry rest })
    else none
  -- `publish_progress`
  | .publish, .tick => some ({ m with writeSeq := p.seq - 1 }, { p with pc := .idle })
  | _, _ => none

/-! ## The steps there are -/

/-- What a step is, one case for each memory access of the source. -/
inductive Moves (cap : Capacity) (n : ℕ) (alive : ℕ → Bool) (m : Shared w ω)
    (p : RingProducer w ω) : ProducerLabel w ω → Shared w ω → RingProducer w ω → Prop where
  | call (c : ProducerCall (Payload w ω)) (pc : p.pc = .idle) :
      Moves cap n alive m p (.call c) m (p.start c)
  | enter (todo : List (Payload w ω)) (pc : p.pc = .entry todo) :
      Moves cap n alive m p .tick m (p.enter n todo)
  | active (k : GateReturn (Payload w ω)) (i : ℕ) (min : Option ℕ) (pc : p.pc = .scanActive k i min)
      (lt : i < n) : Moves cap n alive m p .tick m { p with pc := .scanPid k i min }
  | inactive (k : GateReturn (Payload w ω)) (i : ℕ) (min : Option ℕ)
      (pc : p.pc = .scanActive k i min) (lt : i < n) (skip : (m.regs i).active ≠ 1) :
      Moves cap n alive m p .tick m { p with pc := .scanActive k (i + 1) min }
  | gate (k : GateReturn (Payload w ω)) (i : ℕ) (min : Option ℕ) (pc : p.pc = .scanActive k i min)
      (last : n ≤ i) : Moves cap n alive m p .tick m (p.gate cap min k)
  | owned (k : GateReturn (Payload w ω)) (i : ℕ) (min : Option ℕ) (pc : p.pc = .scanPid k i min) :
      Moves cap n alive m p .tick m { p with pc := .scanCursor k i min }
  | unowned (k : GateReturn (Payload w ω)) (i : ℕ) (min : Option ℕ) (pc : p.pc = .scanPid k i min)
      (skip : (m.regs i).pid = 0) :
      Moves cap n alive m p .tick m { p with pc := .scanActive k (i + 1) min }
  | load (k : GateReturn (Payload w ω)) (i : ℕ) (min : Option ℕ)
      (pc : p.pc = .scanCursor k i min) :
      Moves cap n alive m p .tick m
        { p with pc := .scanActive k (i + 1) (some (minSeq min (m.regs i).cursorSeq)) }
  | blockPublish (item : Payload w ω) (rest : List (Payload w ω))
      (pc : p.pc = .blockPublish item rest) :
      Moves cap n alive m p .tick { m with writeSeq := p.seq - 1 }
        { p with pc := .blocked item rest 0 }
  | retry (item : Payload w ω) (rest : List (Payload w ω)) (spins : ℕ)
      (pc : p.pc = .blocked item rest spins) :
      Moves cap n alive m p .tick m (p.retry item rest spins)
  | condemn (k : PruneReturn (Payload w ω)) (i c : ℕ) (pc : p.pc = .pruneLoad k i c)
      (dead : alive (m.regs i).pid = false) :
      Moves cap n alive m p .tick m { p with pc := .pruneReclaim k i (m.regs i).pid c }
  | spare (k : PruneReturn (Payload w ω)) (i c : ℕ) (pc : p.pc = .pruneLoad k i c) :
      Moves cap n alive m p .tick m { p with pc := .pruneLoad k (i + 1) c }
  | pruned (k : PruneReturn (Payload w ω)) (i c : ℕ) (pc : p.pc = .pruneLoad k i c) :
      Moves cap n alive m p .tick m (p.pruned c k)
  | reclaim (k : PruneReturn (Payload w ω)) (i pid c : ℕ) (pc : p.pc = .pruneReclaim k i pid c) :
      Moves cap n alive m p .tick { m with regs := (reclaim m.regs i pid).2 }
        { p with pc := .pruneLoad k (i + 1) (if (reclaim m.regs i pid).1 then c + 1 else c) }
  | mark (item : Payload w ω) (rest : List (Payload w ω)) (pc : p.pc = .mark item rest) :
      Moves cap n alive m p .tick
        { m with slots := storeSeq m.slots (slotIndex cap p.seq) slotWriting }
        { p with pc := .copy item Finset.univ rest }
  | word (item : Payload w ω) (left : Finset (Fin w)) (rest : List (Payload w ω)) (i : Fin w)
      (pc : p.pc = .copy item left rest) :
      Moves cap n alive m p (.word i)
        { m with slots := storeWord m.slots (slotIndex cap p.seq) i (item i) }
        { p with pc := .copy item (left.erase i) rest }
  | commit (item : Payload w ω) (rest : List (Payload w ω)) (pc : p.pc = .copy item ∅ rest)
      (fits : p.seq + 1 ≤ u64Max) :
      Moves cap n alive m p .tick
        { m with slots := storeSeq m.slots (slotIndex cap p.seq) p.seq }
        { p with seq := p.seq + 1, pc := .entry rest }
  | publish (pc : p.pc = .publish) :
      Moves cap n alive m p .tick { m with writeSeq := p.seq - 1 } { p with pc := .idle }

theorem step_moves {cap : Capacity} {n : ℕ} {alive : ℕ → Bool} {m m' : Shared w ω}
    {p p' : RingProducer w ω} {a : ProducerLabel w ω}
    (h : p.step cap n alive m a = some (m', p')) : Moves cap n alive m p a m' p' := by
  unfold step at h
  split at h
  -- a call, and the top of the loop over its batch
  case h_1 c hpc =>
    cases h
    exact .call c hpc
  case h_2 todo hpc =>
    cases h
    exact .enter todo hpc
  -- the scan of `refresh_gate`: `active`, `pid`, `cursor_seq`
  case h_3 k i min hpc =>
    split_ifs at h with hi hactive
    · cases h
      exact .active k i min hpc hi
    · cases h
      exact .inactive k i min hpc hi hactive
    · cases h
      exact .gate k i min hpc (Nat.not_lt.mp hi)
  case h_4 k i min hpc =>
    split_ifs at h with hpid
    · cases h
      exact .owned k i min hpc
    · cases h
      exact .unowned k i min hpc (not_not.mp hpid)
  case h_5 k i min hpc =>
    cases h
    exact .load k i min hpc
  -- `wait_for_headroom` on a full ring
  case h_6 item rest hpc =>
    cases h
    exact .blockPublish item rest hpc
  case h_7 item rest spins hpc =>
    cases h
    exact .retry item rest spins hpc
  -- `prune_dead_readers`
  case h_8 k i c hpc =>
    split_ifs at h with hi hdead
    · cases h
      exact .condemn k i c hpc hdead.2
    · cases h
      exact .spare k i c hpc
    · cases h
      exact .pruned k i c hpc
  case h_9 k i pid c hpc =>
    cases h
    exact .reclaim k i pid c hpc
  -- `write_slot`, then `publish_progress`
  case h_10 item rest hpc =>
    cases h
    exact .mark item rest hpc
  case h_11 item left rest i hpc =>
    split_ifs at h with hi
    cases h
    exact .word item left rest i hpc
  case h_12 item left rest hpc =>
    split_ifs at h with hl
    cases h
    obtain ⟨rfl, hfits⟩ := hl
    exact .commit item rest hpc hfits
  case h_13 hpc =>
    cases h
    exact .publish hpc
  case h_14 => cases h

/-! ## What a step does to the slots -/

/-- The message being stored and the words of it still missing. -/
def writing (p : RingProducer w ω) : Option (Payload w ω × Finset (Fin w)) :=
  match p.pc with
  | .copy item left _ => some (item, left)
  | _ => none

/-- The messages of the call in progress that are not stored yet. -/
def todo (p : RingProducer w ω) : List (Payload w ω) :=
  match p.pc with
  | .entry todo => todo
  | .scanActive (.headroom item rest) _ _ | .scanPid (.headroom item rest) _ _
  | .scanCursor (.headroom item rest) _ _ => item :: rest
  | .scanActive (.retry item rest _) _ _ | .scanPid (.retry item rest _) _ _
  | .scanCursor (.retry item rest _) _ _ => item :: rest
  | .blockPublish item rest | .blocked item rest _ => item :: rest
  | .pruneLoad (.retry item rest _) _ _ | .pruneReclaim (.retry item rest _) _ _ _ => item :: rest
  | .mark item rest | .copy item _ rest => item :: rest
  | _ => []

/-- Nothing is being stored before or after, and the messages accepted are the ones still to be
stored. -/
structure Quiet (p p' : RingProducer w ω) : Prop where
  seq : p'.seq = p.seq
  idle : p.writing = none
  idle' : p'.writing = none
  accepted : ∃ items, p'.pushed = p.pushed ++ items ∧ p'.todo = p.todo ++ items

/-- The effects a producer's step can have on the slots, on `write_seq` and on `seq`. -/
inductive Effect (cap : Capacity) (m : Shared w ω) (p : RingProducer w ω) (m' : Shared w ω)
    (p' : RingProducer w ω) : Prop where
  | quiet (slots : m'.slots = m.slots) (writeSeq : m'.writeSeq = m.writeSeq) (h : Quiet p p')
  | publish (slots : m'.slots = m.slots) (writeSeq : m'.writeSeq = p.seq - 1) (h : Quiet p p')
  | mark (item : Payload w ω) (rest : List (Payload w ω))
      (slots : m'.slots = storeSeq m.slots (slotIndex cap p.seq) slotWriting)
      (writeSeq : m'.writeSeq = m.writeSeq) (seq : p'.seq = p.seq) (pushed : p'.pushed = p.pushed)
      (idle : p.writing = none) (writing' : p'.writing = some (item, Finset.univ))
      (todo : p.todo = item :: rest) (todo' : p'.todo = item :: rest)
  | word (item : Payload w ω) (left : Finset (Fin w)) (i : Fin w)
      (slots : m'.slots = storeWord m.slots (slotIndex cap p.seq) i (item i))
      (writeSeq : m'.writeSeq = m.writeSeq) (seq : p'.seq = p.seq) (pushed : p'.pushed = p.pushed)
      (writing : p.writing = some (item, left)) (writing' : p'.writing = some (item, left.erase i))
      (todo' : p'.todo = p.todo)
  | commit (item : Payload w ω) (fits : p.seq + 1 ≤ u64Max)
      (slots : m'.slots = storeSeq m.slots (slotIndex cap p.seq) p.seq)
      (writeSeq : m'.writeSeq = m.writeSeq) (seq : p'.seq = p.seq + 1)
      (pushed : p'.pushed = p.pushed) (writing : p.writing = some (item, ∅))
      (idle' : p'.writing = none) (todo : p.todo = item :: p'.todo)

theorem Quiet.refl {p p' : RingProducer w ω} (hseq : p'.seq = p.seq) (h : p.writing = none)
    (h' : p'.writing = none) (hpushed : p'.pushed = p.pushed) (htodo : p'.todo = p.todo) :
    Quiet p p' :=
  ⟨hseq, h, h', [], by rw [hpushed, List.append_nil], by rw [htodo, List.append_nil]⟩

theorem start_quiet {p : RingProducer w ω} (c : ProducerCall (Payload w ω)) (hpc : p.pc = .idle) :
    Quiet p (p.start c) := by
  have hw : p.writing = none := by simp only [writing, hpc]
  have ht : p.todo = [] := by simp only [todo, hpc]
  cases c with
  | push item => exact ⟨rfl, hw, rfl, [item], rfl, by rw [ht]; rfl⟩
  | tryPush item =>
    unfold start
    split_ifs
    · exact .refl rfl hw rfl rfl ht.symm
    · exact ⟨rfl, hw, rfl, [item], rfl, by rw [ht]; rfl⟩
  | pushBatch items =>
    cases items with
    | nil => exact .refl rfl hw hw rfl rfl
    | cons item rest => exact ⟨rfl, hw, rfl, item :: rest, rfl, by rw [ht]; rfl⟩

theorem enter_quiet {p : RingProducer w ω} (n : ℕ) {todo : List (Payload w ω)}
    (hpc : p.pc = .entry todo) : Quiet p (p.enter n todo) := by
  have hw : p.writing = none := by simp only [writing, hpc]
  have ht : p.todo = todo := by simp only [RingProducer.todo, hpc]
  cases todo with
  | nil => exact .refl rfl hw rfl rfl ht.symm
  | cons item rest =>
    unfold enter
    split_ifs <;> exact .refl rfl hw rfl rfl ht.symm

theorem gate_quiet {p : RingProducer w ω} (cap : Capacity) {k : GateReturn (Payload w ω)} {i : ℕ}
    {min : Option ℕ} (hpc : p.pc = .scanActive k i min) : Quiet p (p.gate cap min k) := by
  have hw : p.writing = none := by simp only [writing, hpc]
  cases k with
  | headroom item rest =>
    have ht : p.todo = item :: rest := by simp only [todo, hpc]
    simp only [gate]
    split_ifs <;> exact .refl rfl hw rfl rfl ht.symm
  | retry item rest spins =>
    have ht : p.todo = item :: rest := by simp only [todo, hpc]
    simp only [gate]
    split_ifs <;> exact .refl rfl hw rfl rfl ht.symm
  | tryPush item =>
    have ht : p.todo = [] := by simp only [todo, hpc]
    simp only [gate]
    split_ifs
    · exact ⟨rfl, hw, rfl, [item], rfl, by rw [ht]; rfl⟩
    · exact .refl rfl hw rfl rfl ht.symm
    · exact .refl rfl hw rfl rfl ht.symm
  | tryPushAgain item =>
    have ht : p.todo = [] := by simp only [todo, hpc]
    simp only [gate]
    split_ifs
    · exact ⟨rfl, hw, rfl, [item], rfl, by rw [ht]; rfl⟩
    · exact .refl rfl hw rfl rfl ht.symm

theorem pruned_quiet {p : RingProducer w ω} {k : PruneReturn (Payload w ω)} {i n : ℕ}
    (hpc : p.pc = .pruneLoad k i n) : Quiet p (p.pruned n k) := by
  have hw : p.writing = none := by simp only [writing, hpc]
  cases k with
  | retry item rest spins => exact .refl rfl hw rfl rfl (by simp only [todo, pruned, hpc])
  | tryPush item =>
    have ht : p.todo = [] := by simp only [todo, hpc]
    unfold pruned
    split_ifs <;> exact .refl rfl hw rfl rfl ht.symm

theorem retry_quiet {p : RingProducer w ω} {item : Payload w ω} {rest : List (Payload w ω)}
    {spins : ℕ} (hpc : p.pc = .blocked item rest spins) : Quiet p (p.retry item rest spins) := by
  have hw : p.writing = none := by simp only [writing, hpc]
  have ht : p.todo = item :: rest := by simp only [todo, hpc]
  unfold retry
  split_ifs <;> exact .refl rfl hw rfl rfl ht.symm

/-- A step that only moves the program counter inside a scan or between two publishes. -/
theorem move_quiet {p : RingProducer w ω} {pc : ProducerPc w ω} (hw : p.writing = none)
    (hw' : RingProducer.writing { p with pc := pc } = none)
    (ht : RingProducer.todo { p with pc := pc } = p.todo) : Quiet p { p with pc := pc } :=
  .refl rfl hw hw' rfl ht

/-- What one step does to the slots, to `write_seq` and to `seq`. -/
theorem step_effect {cap : Capacity} {n : ℕ} {alive : ℕ → Bool} {m m' : Shared w ω}
    {p p' : RingProducer w ω} {a : ProducerLabel w ω}
    (h : p.step cap n alive m a = some (m', p')) : Effect cap m p m' p' := by
  cases step_moves h with
  | call c hpc => exact .quiet rfl rfl (start_quiet c hpc)
  | enter todo hpc => exact .quiet rfl rfl (enter_quiet n hpc)
  | gate k i min hpc => exact .quiet rfl rfl (gate_quiet cap hpc)
  | retry item rest spins hpc => exact .quiet rfl rfl (retry_quiet hpc)
  | pruned k i c hpc => exact .quiet rfl rfl (pruned_quiet hpc)
  | active k i min hpc | inactive k i min hpc | owned k i min hpc | unowned k i min hpc
  | load k i min hpc | condemn k i c hpc | spare k i c hpc | reclaim k i pid c hpc =>
    have hw : p.writing = none := by simp only [writing, hpc]
    exact .quiet rfl rfl (move_quiet hw rfl (by cases k <;> simp only [todo, hpc]))
  | blockPublish item rest hpc =>
    have hw : p.writing = none := by simp only [writing, hpc]
    exact .publish rfl rfl (move_quiet hw rfl (by simp only [todo, hpc]))
  | publish hpc =>
    have hw : p.writing = none := by simp only [writing, hpc]
    exact .publish rfl rfl (move_quiet hw rfl (by simp only [todo, hpc]))
  | mark item rest hpc =>
    exact .mark item rest rfl rfl rfl rfl (by simp only [writing, hpc]) rfl
      (by simp only [todo, hpc]) rfl
  | word item left rest i hpc =>
    exact .word item left i rfl rfl rfl rfl (by simp only [writing, hpc]) rfl
      (by simp only [todo, hpc])
  | commit item rest hpc fits =>
    exact .commit item fits rfl rfl rfl rfl (by simp only [writing, hpc]) rfl
      (by simp only [todo, hpc])

end RingProducer

end Ringfire
