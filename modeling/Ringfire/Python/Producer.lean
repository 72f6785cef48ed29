import Ringfire.Foundation.Simulation
import Ringfire.Python.Reader

/-!
# The producer of the Python client

`RingProducer` of `ring.py` writes a ring of its own making: no registry, no lossless policy, one
message per call. Its `push` touches the memory as `write_slot` and `publish_progress` of the Rust
producer do, so every ring it leaves behind is one that a Rust producer on a lossy ring without
readers could have left, and whoever can read the one can read the other.

Python's `seq` has no width. The store of message `2^64 - 1` would leave the mark in its slot;
`Fits` keeps a run below that.

## Main definitions

* `Python.Writer.step`: one memory access of `push`, or its start
* `Python.Writer.Refines`: the Rust producer at the same place

## Main results

* `Python.Writer.Refines.step`: an access of the Python producer is one or two of the Rust producer
* `Python.push_refines`: over whole runs
* `Python.mixed_recv_intact`: readers in both languages receive what was pushed
-/

namespace Ringfire

open Transition

namespace Python

/-- Where a producer stands. -/
inductive ProducerPc (w : ℕ) (ω : Type) where
  | idle
  | mark (item : Payload w ω)
  | copy (item : Payload w ω) (left : Finset (Fin w))
  | publish

/-- The producer's own state. -/
structure RingProducer (w : ℕ) (ω : Type) where
  seq : ℕ
  pc : ProducerPc w ω
  /-- The messages pushed so far. -/
  pushed : List (Payload w ω)

/-- A producer's step: the start of `push`, a payload word, or whatever comes next. -/
inductive ProducerLabel (w : ℕ) (ω : Type) where
  | push (item : Payload w ω)
  | word (i : Fin w)
  | tick

/-- The memory of a ring and the Python producer that writes it. -/
structure Writer (w : ℕ) (ω : Type) where
  slots : ℕ → Slot w ω
  writeSeq : ℕ
  producer : RingProducer w ω

namespace Writer

variable {w : ℕ} {ω : Type}

/-- A ring as `__init__` leaves it. -/
def create [Inhabited ω] (w : ℕ) : Writer w ω :=
  ⟨fun _ => ⟨0, fun _ => default⟩, 0, ⟨1, .idle, []⟩⟩

/-- One memory access of `push`. -/
def step (cap : Capacity) (s : Writer w ω) (a : ProducerLabel w ω) : Option (Writer w ω) :=
  match s.producer.pc, a with
  | .idle, .push item =>
    some { s with
      producer := { s.producer with pc := .mark item, pushed := s.producer.pushed ++ [item] } }
  | .mark item, .tick =>
    some { s with
      slots := storeSeq s.slots (slotIndex cap s.producer.seq) slotWriting
      producer := { s.producer with pc := .copy item Finset.univ } }
  | .copy item left, .word i =>
    if i ∈ left then
      some { s with
        slots := storeWord s.slots (slotIndex cap s.producer.seq) i (item i)
        producer := { s.producer with pc := .copy item (left.erase i) } }
    else none
  | .copy _ left, .tick =>
    if left = ∅ then
      some { s with
        slots := storeSeq s.slots (slotIndex cap s.producer.seq) s.producer.seq
        producer := { s.producer with pc := .publish } }
    else none
  -- `write_seq` follows the slot, and only then the producer counts on
  | .publish, .tick =>
    some { s with
      writeSeq := s.producer.seq
      producer := { s.producer with seq := s.producer.seq + 1, pc := .idle } }
  | _, _ => none

/-- The step does not push a message whose sequence is the mark. -/
def Fits (s : Writer w ω) : ProducerLabel w ω → Prop
  | .push _ => s.producer.pushed.length + 1 < u64Max
  | _ => True

instance (s : Writer w ω) (a : ProducerLabel w ω) : Decidable (s.Fits a) := by
  cases a <;> unfold Fits <;> infer_instance

/-- One memory access of a producer that pushes fewer than `2^64 - 1` messages. -/
def fitting (cap : Capacity) : Writer w ω → ProducerLabel w ω → Option (Writer w ω) :=
  guarded Fits (step cap)

/-! ## The Rust producer at the same place -/

/-- The configuration of a ring made from Python: lossy, and without a registry. -/
def config (cap : Capacity) : Config := ⟨cap, 0, .lossyLatestWins⟩

/-- The same place in the code. -/
inductive PcRefines (p : RingProducer w ω) (q : Ringfire.RingProducer w ω) : Prop where
  | idle (pc : p.pc = .idle) (pc' : q.pc = .idle) (seq : q.seq = p.seq)
  | mark (item : Payload w ω) (pc : p.pc = .mark item) (pc' : q.pc = .mark item [])
      (seq : q.seq = p.seq)
  | copy (item : Payload w ω) (left : Finset (Fin w)) (pc : p.pc = .copy item left)
      (pc' : q.pc = .copy item left []) (seq : q.seq = p.seq)
  | publish (pc : p.pc = .publish) (pc' : q.pc = .publish) (seq : q.seq = p.seq + 1)

variable {ρ : Type}

/-- The producer counts its messages, and none has the mark as its sequence. -/
structure Counted (p : RingProducer w ω) : Prop where
  fits : p.pushed.length < u64Max
  idle : p.pc = .idle → p.seq = p.pushed.length + 1
  busy : p.pc ≠ .idle → p.seq = p.pushed.length

/-- The Rust producer stands at the same place and has written the same ring. -/
structure Refines (s : Writer w ω) (t : System ρ w ω) : Prop where
  slots : t.mem.slots = s.slots
  writeSeq : t.mem.writeSeq = s.writeSeq
  pushed : t.producer.pushed = s.producer.pushed
  lossy : t.producer.flowControl = .lossyLatestWins
  pc : PcRefines s.producer t.producer
  counted : Counted s.producer

/-- The producer goes on with the message it is storing. -/
theorem Counted.busy' {p : RingProducer w ω} (h : Counted p) (hpc : p.pc ≠ .idle)
    {pc : ProducerPc w ω} (hpc' : pc ≠ .idle) : Counted { p with pc := pc } :=
  ⟨h.fits, fun he => absurd he hpc', fun _ => h.busy hpc⟩

theorem Refines.create [Inhabited ω] (cap : Capacity) :
    Refines (create w : Writer w ω) (System.create ρ w (config cap)) where
  slots := rfl
  writeSeq := rfl
  pushed := rfl
  lossy := rfl
  pc := .idle rfl rfl rfl
  counted := ⟨show 0 < u64Max by decide, fun _ => rfl, fun h => absurd rfl h⟩

variable [DecidableEq ρ] [Inhabited ω] {cap : Capacity} {s s' : Writer w ω} {t : System ρ w ω}

/-- A step of the Rust producer as a step of its ring. -/
theorem reaches_of_producer {a : Ringfire.ProducerLabel w ω} {mem : Shared w ω}
    {q : Ringfire.RingProducer w ω}
    (h : t.producer.step cap 0 t.alive t.mem a = some (mem, q)) :
    Reaches (System.step (config cap)) t { t with mem := mem, producer := q } :=
  .single (a := .producer a) (by simp only [System.step, config, h])

/-- A push is accepted by both. -/
theorem Refines.push (h : Refines s t) (hpc : s.producer.pc = .idle) {item : Payload w ω}
    (hfits : s.producer.pushed.length + 1 < u64Max) :
    ∃ t', Reaches (System.step (config cap)) t t' ∧
      Refines { s with
        producer := { s.producer with pc := .mark item, pushed := s.producer.pushed ++ [item] } }
        t' := by
  cases h.pc with
  | idle _ pc' seq =>
    -- the call, and the top of the loop over its batch of one
    have hcall : t.producer.step cap 0 t.alive t.mem (.call (.push item)) =
        some (t.mem, t.producer.accept [item]) := by
      simp only [Ringfire.RingProducer.step, pc', Ringfire.RingProducer.start]
    have henter : (t.producer.accept [item]).step cap 0 t.alive t.mem .tick =
        some (t.mem, { t.producer.accept [item] with pc := .mark item [] }) := by
      simp [Ringfire.RingProducer.step, Ringfire.RingProducer.accept, Ringfire.RingProducer.enter]
    refine ⟨_, (reaches_of_producer hcall).trans (reaches_of_producer henter), h.slots,
      h.writeSeq, ?_, h.lossy, .mark item rfl rfl seq, ⟨?_, ?_, ?_⟩⟩
    · exact congrArg (· ++ [item]) h.pushed
    · rw [List.length_append]
      exact hfits
    · rintro ⟨⟩
    · intro _
      rw [List.length_append]
      exact h.counted.idle hpc
  | mark _ pc | copy _ _ pc | publish pc =>
    rw [hpc] at pc
    cases pc

/-- The mark is stored by both. -/
theorem Refines.mark (h : Refines s t) {item : Payload w ω} (hpc : s.producer.pc = .mark item) :
    ∃ t', Reaches (System.step (config cap)) t t' ∧
      Refines { s with
        slots := storeSeq s.slots (slotIndex cap s.producer.seq) slotWriting
        producer := { s.producer with pc := .copy item Finset.univ } } t' := by
  cases h.pc with
  | mark item' pc pc' seq =>
    cases hpc.symm.trans pc
    have hmark : t.producer.step cap 0 t.alive t.mem .tick =
        some ({ t.mem with slots := storeSeq t.mem.slots (slotIndex cap t.producer.seq) slotWriting },
          { t.producer with pc := .copy item Finset.univ [] }) := by
      simp only [Ringfire.RingProducer.step, pc']
    refine ⟨_, reaches_of_producer hmark, ?_, h.writeSeq, h.pushed, h.lossy,
      .copy item _ rfl rfl seq, h.counted.busy' ?_ ?_⟩
    · simp only [h.slots, seq]
    · rw [hpc]
      rintro ⟨⟩
    · rintro ⟨⟩
  | idle pc | copy _ _ pc | publish pc =>
    rw [hpc] at pc
    cases pc

/-- A payload word is stored by both. -/
theorem Refines.word (h : Refines s t) {item : Payload w ω} {left : Finset (Fin w)} {i : Fin w}
    (hpc : s.producer.pc = .copy item left) (hi : i ∈ left) :
    ∃ t', Reaches (System.step (config cap)) t t' ∧
      Refines { s with
        slots := storeWord s.slots (slotIndex cap s.producer.seq) i (item i)
        producer := { s.producer with pc := .copy item (left.erase i) } } t' := by
  cases h.pc with
  | copy item' left' pc pc' seq =>
    cases hpc.symm.trans pc
    have hword : t.producer.step cap 0 t.alive t.mem (.word i) =
        some ({ t.mem with slots := storeWord t.mem.slots (slotIndex cap t.producer.seq) i (item i) },
          { t.producer with pc := .copy item (left.erase i) [] }) := by
      simp only [Ringfire.RingProducer.step, pc', if_pos hi]
    refine ⟨_, reaches_of_producer hword, ?_, h.writeSeq, h.pushed, h.lossy,
      .copy item _ rfl rfl seq, h.counted.busy' ?_ ?_⟩
    · simp only [h.slots, seq]
    · rw [hpc]
      rintro ⟨⟩
    · rintro ⟨⟩
  | idle pc | mark _ pc | publish pc =>
    rw [hpc] at pc
    cases pc

/-- The sequence is stored by both; the Rust producer counts on at once. -/
theorem Refines.commit (h : Refines s t) {item : Payload w ω}
    (hpc : s.producer.pc = .copy item ∅) :
    ∃ t', Reaches (System.step (config cap)) t t' ∧
      Refines { s with
        slots := storeSeq s.slots (slotIndex cap s.producer.seq) s.producer.seq
        producer := { s.producer with pc := .publish } } t' := by
  cases h.pc with
  | copy item' left' pc pc' seq =>
    cases hpc.symm.trans pc
    have hbusy : s.producer.pc ≠ .idle := by
      rw [hpc]
      rintro ⟨⟩
    have hfits : t.producer.seq + 1 ≤ u64Max := by
      rw [seq, h.counted.busy hbusy]
      exact h.counted.fits
    -- the store, and the end of the loop over the batch
    have hcommit : t.producer.step cap 0 t.alive t.mem .tick =
        some ({ t.mem with
            slots := storeSeq t.mem.slots (slotIndex cap t.producer.seq) t.producer.seq },
          { t.producer with seq := t.producer.seq + 1, pc := .entry [] }) := by
      simp [Ringfire.RingProducer.step, pc', hfits]
    have henter (mem : Shared w ω) (q : Ringfire.RingProducer w ω) (hq : q.pc = .entry []) :
        q.step cap 0 t.alive mem .tick = some (mem, { q with pc := .publish }) := by
      simp only [Ringfire.RingProducer.step, hq, Ringfire.RingProducer.enter]
    refine ⟨_, (reaches_of_producer hcommit).trans (reaches_of_producer (henter _ _ rfl)), ?_,
      h.writeSeq, h.pushed, h.lossy, .publish rfl rfl (congrArg (· + 1) seq),
      h.counted.busy' hbusy (by rintro ⟨⟩)⟩
    simp only [h.slots, seq]
  | idle pc | mark _ pc | publish pc =>
    rw [hpc] at pc
    cases pc

/-- The message is published by both. -/
theorem Refines.publish (h : Refines s t) (hpc : s.producer.pc = .publish) :
    ∃ t', Reaches (System.step (config cap)) t t' ∧
      Refines { s with
        writeSeq := s.producer.seq
        producer := { s.producer with seq := s.producer.seq + 1, pc := .idle } } t' := by
  cases h.pc with
  | publish pc pc' seq =>
    have hbusy : s.producer.pc ≠ .idle := by
      rw [hpc]
      rintro ⟨⟩
    have hpublish : t.producer.step cap 0 t.alive t.mem .tick =
        some ({ t.mem with writeSeq := t.producer.seq - 1 }, { t.producer with pc := .idle }) := by
      simp only [Ringfire.RingProducer.step, pc']
    refine ⟨_, reaches_of_producer hpublish, h.slots, ?_, h.pushed, h.lossy, .idle rfl rfl seq,
      h.counted.fits, fun _ => ?_, fun he => absurd rfl he⟩
    · simp only [seq, Nat.add_sub_cancel]
    · simp only [h.counted.busy hbusy]
  | idle pc | mark _ pc | copy _ _ pc =>
    rw [hpc] at pc
    cases pc

/-- **An access of the Python producer is one or two of the Rust producer.** -/
theorem Refines.step {a : ProducerLabel w ω} (h : Refines s t)
    (hstep : fitting cap s a = some s') :
    ∃ t', Reaches (System.step (config cap)) t t' ∧ Refines s' t' := by
  unfold fitting guarded at hstep
  split_ifs at hstep with hfits
  unfold Writer.step at hstep
  split at hstep
  case h_1 item hpc =>
    cases hstep
    exact h.push hpc hfits
  case h_2 item hpc =>
    cases hstep
    exact h.mark hpc
  case h_3 item left i hpc =>
    split_ifs at hstep with hi
    cases hstep
    exact h.word hpc hi
  case h_4 item left hpc =>
    split_ifs at hstep with hleft
    cases hstep
    subst hleft
    exact h.commit hpc
  case h_5 hpc =>
    cases hstep
    exact h.publish hpc
  case h_6 => cases hstep

end Writer

/-- **The Python producer refines the Rust producer.** Whatever a Python producer has pushed, a
Rust producer on a lossy ring without readers can have pushed the same messages and left the same
slots and the same `write_seq`. -/
theorem push_refines {w : ℕ} {ω ρ : Type} [DecidableEq ρ] [Inhabited ω] {cap : Capacity}
    {s : Writer w ω} (hreach : Reaches (Writer.fitting cap) (.create w) s) :
    ∃ t : System ρ w ω,
      Reaches (System.step (Writer.config cap)) (System.create ρ w (Writer.config cap)) t ∧
      t.mem.slots = s.slots ∧ t.mem.writeSeq = s.writeSeq ∧
      t.producer.pushed = s.producer.pushed ∧
      (s.producer.pc = .idle → t.producer.pc = .idle ∧ t.producer.seq = s.producer.seq) := by
  obtain ⟨t, ht, h⟩ :=
    reaches_of_simulates (fun h hstep => h.step hstep) (Writer.Refines.create (ρ := ρ) cap) hreach
  refine ⟨t, ht, h.slots, h.writeSeq, h.pushed, fun hidle => ?_⟩
  cases h.pc with
  | idle pc pc' seq => exact ⟨pc', seq⟩
  | mark _ pc | copy _ _ pc | publish pc =>
    rw [hidle] at pc
    cases pc

/-- Two messages pushed from Python into a ring of two slots. -/
theorem push_refines_two :
    ∃ (s : Writer 1 ℕ) (t : System Unit 1 ℕ),
      Reaches (System.step (Writer.config ⟨2, isPowerOfTwo_two⟩))
        (System.create Unit 1 (Writer.config ⟨2, isPowerOfTwo_two⟩)) t ∧
      t.mem.writeSeq = 2 ∧ (t.mem.slots 1).seq = 1 ∧ (t.mem.slots 0).seq = 2 ∧
      t.producer.pushed = s.producer.pushed ∧ s.producer.pushed.length = 2 := by
  have hreach : Reaches (Writer.fitting ⟨2, isPowerOfTwo_two⟩) (.create 1 : Writer 1 ℕ) _ :=
    ⟨[.push fun _ => 7, .tick, .word 0, .tick, .tick, .push fun _ => 8, .tick, .word 0, .tick,
      .tick], rfl⟩
  obtain ⟨t, ht, hslots, hws, hpushed, -⟩ := push_refines (ρ := Unit) hreach
  refine ⟨_, t, ht, hws, ?_, ?_, hpushed, rfl⟩
  · rw [hslots]
    rfl
  · rw [hslots]
    rfl

/-! ## Readers in both languages -/

namespace Writer

variable {w : ℕ} {ω : Type}

/-- The sequence of the first message that is not in its slot yet. -/
def next (p : RingProducer w ω) : ℕ :=
  match p.pc with
  | .publish => p.seq + 1
  | _ => p.seq

/-- What the readers see. -/
def view (s : Writer w ω) : View w ω where
  slots := s.slots
  writeSeq := s.writeSeq
  stored k := 1 ≤ k ∧ k < next s.producer
  top _ := next s.producer - 1
  message k := s.producer.pushed[k - 1]?

theorem Refines.view_eq {ρ : Type} {s : Writer w ω} {t : System ρ w ω} (h : Refines s t) :
    t.view = s.view := by
  have hnext : t.producer.seq = next s.producer := by
    cases h.pc with
    | idle pc _ seq | mark _ pc _ seq | copy _ _ pc _ seq | publish pc _ seq =>
      rw [seq]
      simp only [next, pc]
  have hmessage : t.producer.message = fun k => s.producer.pushed[k - 1]? := by
    funext k
    rw [Ringfire.RingProducer.message, h.pushed]
  simp only [System.view, Writer.view, h.slots, h.writeSeq, hnext, hmessage]

variable [Inhabited ω]

/-- A ring written from Python is one that a Rust producer can have written. -/
def Sound (cap : Capacity) (s : Writer w ω) : Prop :=
  ∃ t : System Empty w ω, t.Inv (config cap) ∧ Refines s t

/-- A ring written from Python can be watched like any other. -/
theorem watchable (cap : Capacity) : Watchable (Sound cap) (fitting (ω := ω) (w := w) cap) view where
  inv := by
    rintro s s' a ⟨t, hinv, h⟩ hstep
    obtain ⟨t', ht', h'⟩ := h.step hstep
    exact ⟨t', ((System.watchable _).evolves_reaches hinv ht').1, h'⟩
  truthful := by
    rintro s ⟨t, hinv, h⟩
    rw [← h.view_eq]
    exact (System.watchable _).truthful hinv
  evolves := by
    rintro s s' a ⟨t, hinv, h⟩ hstep
    obtain ⟨t', ht', h'⟩ := h.step hstep
    rw [← h.view_eq, ← h'.view_eq]
    exact ((System.watchable _).evolves_reaches hinv ht').2

theorem sound_create (cap : Capacity) : Sound cap (create w : Writer w ω) :=
  ⟨_, .create Empty w _, .create cap⟩

end Writer

variable {w : ℕ} {ω : Type}

/-- A reader in either language. The ring has no registry to register in. -/
inductive AnyReader (w : ℕ) (ω : Type) where
  | absent
  | rust (c : Ringfire.RingConsumer w ω)
  | python (c : RingConsumer w ω)

/-- What a reader does. -/
inductive AnyLabel (w : ℕ) where
  | attachRust (start : StartPosition)
  | attachPython (savedSeq : Option ℕ) (mode : StartMode)
  | rust (a : Ringfire.ConsumerLabel w)
  | python (a : ConsumerLabel w)

/-- One memory access of a reader. -/
def AnyReader.look [Inhabited ω] (cap : Capacity) (s : Writer w ω) :
    AnyReader w ω → AnyLabel w → Option (AnyReader w ω)
  | .absent, .attachRust start =>
    if (resolveStart cap s.writeSeq start).1 ≤ u64Max then
      some (.rust (.attach false false false (resolveStart cap s.writeSeq start).1
        (resolveStart cap s.writeSeq start).2))
    else none
  | .absent, .attachPython savedSeq mode =>
    (startPosition cap s.writeSeq savedSeq mode).map fun start => .python (.attach start)
  | .rust c, .rust a => (c.step cap s.slots s.writeSeq a).map fun r => .rust r.1
  | .python c, .python a => (c.step cap s.slots s.writeSeq a).map .python
  | _, _ => none

/-- What holds of a reader. -/
def AnyReader.Inv (cap : Capacity) (v : View w ω) : AnyReader w ω → Prop
  | .absent => True
  | .rust c => c.Inv cap v
  | .python c => c.Inv cap v

theorem AnyReader.kept [Inhabited ω] (cap : Capacity) :
    Observed.Kept (Writer.Sound cap) (Writer.fitting cap) (AnyReader.look (w := w) (ω := ω) cap)
      (fun _ => True) fun s x => x.Inv cap s.view where
  base := by
    intro b b' a x hI hJ hstep
    have he := (Writer.watchable cap).evolves hI hstep
    cases x with
    | absent => trivial
    | rust c => exact Ringfire.RingConsumer.Inv.evolves hJ he
    | python c => exact RingConsumer.Inv.evolves hJ he
  look := by
    intro b a x x' _ hI hJ hlook
    have hv := (Writer.watchable cap).truthful hI
    unfold AnyReader.look at hlook
    split at hlook
    case h_1 start =>
      split_ifs at hlook
      cases hlook
      exact .attach (one_le_resolveStart cap _ start)
    case h_2 savedSeq mode =>
      obtain ⟨start, hstart, rfl⟩ := Option.map_eq_some_iff.mp hlook
      exact .attach (one_le_startPosition hstart)
    case h_3 c a =>
      obtain ⟨r, hr, rfl⟩ := Option.map_eq_some_iff.mp hlook
      exact Ringfire.RingConsumer.Inv.step hv hJ hr
    case h_4 c a =>
      obtain ⟨c', hc', rfl⟩ := Option.map_eq_some_iff.mp hlook
      exact RingConsumer.Inv.step hv hJ hc'
    case h_5 => cases hlook

/-- **Readers in both languages receive what was pushed from Python.** In every interleaving of a
Python producer with any number of Rust and Python consumers, what a consumer returned under
sequence `n` is the `n`-th message pushed. -/
theorem mixed_recv_intact {κ : Type} [DecidableEq κ] [Inhabited ω] {cap : Capacity}
    {s : Observed κ (Writer w ω) (AnyReader w ω)}
    (hreach : Reaches (Observed.step (Writer.fitting cap) (AnyReader.look cap))
      ⟨.create w, fun _ => .absent⟩ s) {k : κ} {n : ℕ} {d : Payload w ω} :
    (∀ c, s.observer k = .rust c → (n, d) ∈ c.delivered →
      s.base.producer.pushed[n - 1]? = some d) ∧
    ∀ c, s.observer k = .python c → (n, d) ∈ c.delivered → n < u64Max →
      s.base.producer.pushed[n - 1]? = some d := by
  have hinit (k : κ) : AnyReader.Inv cap (Writer.create w : Writer w ω).view .absent := trivial
  have hinv := ((AnyReader.kept cap).invariant (Writer.watchable cap).inv
    (Writer.sound_create cap) hinit hreach).2 k
  constructor
  · intro c hc hmem
    rw [hc] at hinv
    exact Ringfire.RingConsumer.Inv.delivered hinv n d hmem
  · intro c hc hmem hn
    rw [hc] at hinv
    exact RingConsumer.Inv.delivered hinv n d hmem hn.ne

/-- A message pushed from Python is received by a Rust and by a Python consumer. -/
theorem mixed_recv_intact_first :
    ∃ (s : Observed Bool (Writer 1 ℕ) (AnyReader 1 ℕ)) (c : Ringfire.RingConsumer 1 ℕ)
      (c' : RingConsumer 1 ℕ) (d : Payload 1 ℕ), s.observer true = .rust c ∧
        s.observer false = .python c' ∧ (1, d) ∈ c.delivered ∧ (1, d) ∈ c'.delivered ∧ d 0 = 7 ∧
        s.base.producer.pushed[1 - 1]? = some d := by
  have hreach : Reaches
      (Observed.step (Writer.fitting ⟨2, isPowerOfTwo_two⟩) (AnyReader.look ⟨2, isPowerOfTwo_two⟩))
      (⟨.create 1, fun _ => .absent⟩ : Observed Bool (Writer 1 ℕ) (AnyReader 1 ℕ)) _ :=
    ⟨[.observer true (.attachRust .oldest), .observer false (.attachPython none .oldest),
      .base (.push fun _ => 7), .base .tick, .base (.word 0), .base .tick, .base .tick,
      .observer true (.rust (.call .recvStatus)), .observer true (.rust .tick),
      .observer true (.rust (.word 0)), .observer true (.rust .tick),
      .observer false (.python (.call .recvStatus)), .observer false (.python .tick),
      .observer false (.python (.word 0)), .observer false (.python .tick)], rfl⟩
  have hmem : (1, Function.update (fun _ => 0) 0 7) ∈
      [((1 : ℕ), (Function.update (fun _ => 0) 0 7 : Payload 1 ℕ))] := List.mem_singleton_self _
  exact ⟨_, _, _, _, rfl, rfl, hmem, hmem, rfl,
    (mixed_recv_intact (n := 1) hreach (k := true)).1 _ rfl hmem⟩

end Python

end Ringfire
