import Ringfire.Ring.Accounting
import Ringfire.Ring.Registration

/-!
# Lossless backpressure

On a lossless ring a message is written only below `gateLimit`, and `gateLimit` is recomputed by a
scan of the registry that is not atomic: readers register, move and leave while it runs. A
`Watch` follows the scans from outside: it notes which attached readers' cursors the scan in
progress has loaded, and at the end of the first scan that saw a reader, the sequence the
producer was about to write. From then on the gate stays within a ring of the reader's registered
cursor, so nothing the reader still needs is overwritten.

## Main definitions

* `Watch`: what the scans have seen
* `System.GateInv`: the gate is within a ring of every observed reader's registered cursor

## Main results

* `System.GateInv.step`: every step of the system preserves it
* `lossless_backpressure`: an observed reader loses nothing it could still read
-/

namespace Ringfire

variable {w : ℕ} {ω : Type}

/-! ## The gate, from the producer's side -/

namespace RingProducer

/-- The registry slot a scan stands at, and the minimum it has so far. -/
def scanPos (p : RingProducer w ω) : Option (ℕ × Option ℕ) :=
  match p.pc with
  | .scanActive _ i min | .scanPid _ i min | .scanCursor _ i min => some (i, min)
  | _ => none

/-- The producer is about to write, or writing, message `seq`. -/
def writes (p : RingProducer w ω) : Bool :=
  match p.pc with
  | .mark _ _ | .copy _ _ _ => true
  | _ => false

/-- What a step does to the gate. -/
inductive GateEffect (cap : Capacity) (n : ℕ) (m : Shared w ω) (p : RingProducer w ω)
    (a : ProducerLabel w ω) (p' : RingProducer w ω) : Prop where
  | other (pos : p.scanPos = none) (pos' : p'.scanPos = none ∨ p'.scanPos = some (0, none))
      (limit : p'.gateLimit = p.gateLimit)
      (seq : p'.seq = p.seq ∨ (p'.seq = p.seq + 1 ∧ p.writes = true))
      (write : p'.writes = true → p'.seq = p.seq ∧ (p.writes = true ∨
        (p.flowControl = .losslessBackpressure → p.seq < p.gateLimit ∨ n = 0)))
  | stay (pos : p'.scanPos = p.scanPos) (limit : p'.gateLimit = p.gateLimit)
      (seq : p'.seq = p.seq) (idle' : p'.writes = false)
      (pc : (∃ k i min, p.pc = .scanActive k i min ∧ i < n) ∨ ∃ k i min, p.pc = .scanPid k i min)
  | skip (i : ℕ) (min : Option ℕ) (pos : p.scanPos = some (i, min))
      (pos' : p'.scanPos = some (i + 1, min))
      (pc : (∃ k i min, p.pc = .scanActive k i min ∧ i < n) ∨ ∃ k i min, p.pc = .scanPid k i min)
      (absent : (m.regs i).active ≠ 1 ∨ (m.regs i).pid = 0)
      (limit : p'.gateLimit = p.gateLimit) (seq : p'.seq = p.seq) (idle' : p'.writes = false)
  | load (k : GateReturn (Payload w ω)) (i : ℕ) (min : Option ℕ) (pc : p.pc = .scanCursor k i min)
      (tick : a = .tick)
      (pos' : p'.scanPos = some (i + 1, some (minSeq min (m.regs i).cursorSeq)))
      (limit : p'.gateLimit = p.gateLimit) (seq : p'.seq = p.seq) (idle' : p'.writes = false)
  | gate (k : GateReturn (Payload w ω)) (i : ℕ) (min : Option ℕ) (pc : p.pc = .scanActive k i min)
      (tick : a = .tick) (last : n ≤ i) (pos' : p'.scanPos = none)
      (limit : p'.gateLimit = RingProducer.limit cap p.seq min) (seq : p'.seq = p.seq)
      (write : p'.writes = true → p'.seq < p'.gateLimit)

theorem start_gateEffect {cap : Capacity} {n : ℕ} {m : Shared w ω} {p : RingProducer w ω}
    (c : ProducerCall (Payload w ω)) (hpc : p.pc = .idle) :
    GateEffect cap n m p (.call c) (p.start c) := by
  have hpos : p.scanPos = none := by simp only [scanPos, hpc]
  cases c with
  | push item => exact .other hpos (.inl rfl) rfl (.inl rfl) (by rintro ⟨⟩)
  | tryPush item =>
    unfold start
    split_ifs
    · exact .other hpos (.inr rfl) rfl (.inl rfl) (by rintro ⟨⟩)
    · exact .other hpos (.inl rfl) rfl (.inl rfl) (by rintro ⟨⟩)
  | pushBatch items =>
    cases items with
    | nil =>
      refine .other hpos (.inl hpos) rfl (.inl rfl) fun hw => ?_
      simp only [writes, start, hpc] at hw
      cases hw
    | cons item rest => exact .other hpos (.inl rfl) rfl (.inl rfl) (by rintro ⟨⟩)

theorem enter_gateEffect {cap : Capacity} {n : ℕ} {m : Shared w ω} {p : RingProducer w ω}
    {todo : List (Payload w ω)} (hpc : p.pc = .entry todo) :
    GateEffect cap n m p .tick (p.enter n todo) := by
  have hpos : p.scanPos = none := by simp only [scanPos, hpc]
  cases todo with
  | nil => exact .other hpos (.inl rfl) rfl (.inl rfl) (by rintro ⟨⟩)
  | cons item rest =>
    unfold enter
    split_ifs with hgate
    · exact .other hpos (.inr rfl) rfl (.inl rfl) (by rintro ⟨⟩)
    · refine .other hpos (.inl rfl) rfl (.inl rfl) fun _ => ⟨rfl, .inr fun hflow => ?_⟩
      -- the gate was open, or there is no registry
      by_contra hc
      rw [not_or, Nat.not_lt] at hc
      exact hgate ⟨by simp only [gated, hflow, hc.1, decide_true, and_self], hc.2⟩

theorem gate_gateEffect {cap : Capacity} {n : ℕ} {m : Shared w ω} {p : RingProducer w ω}
    {k : GateReturn (Payload w ω)} {i : ℕ} {min : Option ℕ} (hpc : p.pc = .scanActive k i min)
    (hi : n ≤ i) : GateEffect cap n m p .tick (p.gate cap min k) := by
  cases k with
  | headroom item rest | retry item rest spins =>
    simp only [gate]
    split_ifs with hlt
    · exact .gate _ i min hpc rfl hi rfl rfl rfl fun _ => hlt
    · exact .gate _ i min hpc rfl hi rfl rfl rfl (by rintro ⟨⟩)
  | tryPush item =>
    simp only [gate]
    split_ifs
    · exact .gate _ i min hpc rfl hi rfl rfl rfl (by rintro ⟨⟩)
    · exact .gate _ i min hpc rfl hi rfl rfl rfl (by rintro ⟨⟩)
    · exact .gate _ i min hpc rfl hi rfl rfl rfl (by rintro ⟨⟩)
  | tryPushAgain item =>
    simp only [gate]
    split_ifs
    · exact .gate _ i min hpc rfl hi rfl rfl rfl (by rintro ⟨⟩)
    · exact .gate _ i min hpc rfl hi rfl rfl rfl (by rintro ⟨⟩)

theorem step_gateEffect {cap : Capacity} {n : ℕ} {alive : ℕ → Bool} {m m' : Shared w ω}
    {p p' : RingProducer w ω} {a : ProducerLabel w ω}
    (h : p.step cap n alive m a = some (m', p')) : GateEffect cap n m p a p' := by
  cases step_moves h with
  | call c hpc => exact start_gateEffect c hpc
  | enter todo hpc => exact enter_gateEffect hpc
  | gate k i min hpc last => exact gate_gateEffect hpc last
  | load k i min hpc => exact .load k i min hpc rfl rfl rfl rfl rfl
  | active k i min hpc lt =>
    have hpos : p.scanPos = some (i, min) := by simp only [scanPos, hpc]
    exact .stay hpos.symm rfl rfl rfl (.inl ⟨k, i, min, hpc, lt⟩)
  | inactive k i min hpc lt skip =>
    have hpos : p.scanPos = some (i, min) := by simp only [scanPos, hpc]
    exact .skip i min hpos rfl (.inl ⟨k, i, min, hpc, lt⟩) (.inl skip) rfl rfl rfl
  | owned k i min hpc =>
    have hpos : p.scanPos = some (i, min) := by simp only [scanPos, hpc]
    exact .stay hpos.symm rfl rfl rfl (.inr ⟨k, i, min, hpc⟩)
  | unowned k i min hpc skip =>
    have hpos : p.scanPos = some (i, min) := by simp only [scanPos, hpc]
    exact .skip i min hpos rfl (.inr ⟨k, i, min, hpc⟩) (.inr skip) rfl rfl rfl
  | retry item rest spins hpc =>
    have hpos : p.scanPos = none := by simp only [scanPos, hpc]
    unfold retry
    split_ifs
    · exact .other hpos (.inr rfl) rfl (.inl rfl) (by rintro ⟨⟩)
    · exact .other hpos (.inl rfl) rfl (.inl rfl) (by rintro ⟨⟩)
  | pruned k i c hpc =>
    have hpos : p.scanPos = none := by simp only [scanPos, hpc]
    cases k with
    | retry item rest spins => exact .other hpos (.inr rfl) rfl (.inl rfl) (by rintro ⟨⟩)
    | tryPush item =>
      simp only [pruned]
      split_ifs
      · exact .other hpos (.inr rfl) rfl (.inl rfl) (by rintro ⟨⟩)
      · exact .other hpos (.inl rfl) rfl (.inl rfl) (by rintro ⟨⟩)
  | blockPublish item rest hpc | condemn k i c hpc | spare k i c hpc | reclaim k i pid c hpc
  | publish hpc =>
    exact .other (by simp only [scanPos, hpc]) (.inl rfl) rfl (.inl rfl) (by rintro ⟨⟩)
  | mark item rest hpc | word item left rest i hpc =>
    exact .other (by simp only [scanPos, hpc]) (.inl rfl) rfl (.inl rfl)
      fun _ => ⟨rfl, .inl (by simp only [writes, hpc])⟩
  | commit item rest hpc =>
    exact .other (by simp only [scanPos, hpc]) (.inl rfl) rfl
      (.inr ⟨rfl, by simp only [writes, hpc]⟩) (by rintro ⟨⟩)

theorem step_flowControl {cap : Capacity} {n : ℕ} {alive : ℕ → Bool} {m m' : Shared w ω}
    {p p' : RingProducer w ω} {a : ProducerLabel w ω}
    (h : p.step cap n alive m a = some (m', p')) : p'.flowControl = p.flowControl := by
  cases step_moves h with
  | call c =>
    unfold start
    split
    · rfl
    · rfl
    · rfl
    · split_ifs <;> rfl
  | enter todo =>
    unfold enter
    split
    · rfl
    · split_ifs <;> rfl
  | gate k => cases k <;> simp only [gate] <;> split_ifs <;> rfl
  | retry =>
    unfold retry
    split_ifs <;> rfl
  | pruned k =>
    cases k with
    | retry => rfl
    | tryPush =>
      simp only [pruned]
      split_ifs <;> rfl
  | active | inactive | owned | unowned | load | blockPublish | condemn | spare | reclaim => rfl
  | mark | word | commit | publish => rfl

/-- The limit never exceeds a ring beyond a cursor the scan has loaded. -/
theorem limit_le {cap : Capacity} {seq k : ℕ} {min : Option ℕ} (h : ∃ m, min = some m ∧ m ≤ k) :
    limit cap seq min ≤ k + cap.val := by
  obtain ⟨m, rfl, hm⟩ := h
  calc limit cap seq (some m) ≤ m + cap.val := Nat.min_le_left _ _
    _ ≤ k + cap.val := Nat.add_le_add_right hm _

end RingProducer

/-! ## Watching the scans -/

/-- What the scans have seen: the readers whose cursor the scan in progress has loaded, and for
each reader the sequence about to be written when a scan first saw it. -/
structure Watch (ρ : Type) where
  seen : ρ → Bool
  observed : ρ → Option ℕ

/-- The registry slot in which the reader's registration is active. -/
def Reader.activeSlot : Reader w ω → Option ℕ
  | .registering _ _ _ (.registered i) => some i
  | .attached _ slot _ => slot
  | _ => none

namespace Watch

variable {ρ : Type}

/-- Nothing scanned yet. -/
def start : Watch ρ := ⟨fun _ => false, fun _ => none⟩

/-- The watch after a step: a load of a cursor in `min_cursor` sees the reader registered there,
and the end of `refresh_gate` observes the readers it has seen that are still registered. -/
def next (cfg : Config) (s : System ρ w ω) (l : Label ρ w ω) (o : Watch ρ) : Watch ρ :=
  match l, s.producer.pc with
  | .producer .tick, .scanCursor _ i _ =>
    { o with seen := fun r => o.seen r || decide ((s.readers r).activeSlot = some i) }
  | .producer .tick, .scanActive _ i _ =>
    if i < cfg.maxReaders then o
    else
      { seen := fun _ => false
        observed := fun r =>
          if o.observed r = none ∧ o.seen r ∧ (s.readers r).activeSlot ≠ none then some s.producer.seq
          else o.observed r }
  | _, _ => o

end Watch

namespace System

variable {ρ : Type} [DecidableEq ρ] [Inhabited ω]

/-- A step of the system, with the watch alongside. -/
def watchStep (cfg : Config) (x : System ρ w ω × Watch ρ) (l : Label ρ w ω) :
    Option (System ρ w ω × Watch ρ) :=
  (x.1.step cfg l).map fun s' => (s', x.2.next cfg x.1 l)

/-- The registration of reader `r` is active in slot `i`, and its process is alive. -/
structure Guarded (s : System ρ w ω) (r : ρ) (i : ℕ) : Prop where
  slot : (s.readers r).activeSlot = some i
  alive : (s.readers r).alive s.alive = true

/-- The gate is within a ring of every observed reader's registered cursor, and a scan in progress
has every seen reader's cursor in its minimum. -/
structure GateInv (cfg : Config) (s : System ρ w ω) (o : Watch ρ) : Prop where
  flow : s.producer.flowControl = cfg.flowControl
  open_gate : cfg.flowControl = .losslessBackpressure → s.producer.writes = true →
    s.producer.seq < s.producer.gateLimit ∨ cfg.maxReaders = 0
  limit : ∀ r i S, s.Guarded r i → o.observed r = some S →
    s.producer.gateLimit ≤ (s.mem.regs i).cursorSeq + cfg.cap.val ∧
      (s.producer.seq ≤ S ∨ s.producer.seq ≤ (s.mem.regs i).cursorSeq + cfg.cap.val)
  seen : ∀ r i, s.Guarded r i → o.seen r = true →
    ∃ j min, s.producer.scanPos = some (j, min) ∧ i < j ∧
      ∃ m, min = some m ∧ m ≤ (s.mem.regs i).cursorSeq
  scanned : ∀ r i j min, s.Guarded r i → o.observed r ≠ none →
    s.producer.scanPos = some (j, min) → i < j → o.seen r = true
  attached : ∀ r, o.seen r = true ∨ o.observed r ≠ none →
    (s.readers r).activeSlot ≠ none ∨ retired (s.readers r) = true

variable {cfg : Config} {s s' : System ρ w ω} {o : Watch ρ}

omit [DecidableEq ρ] [Inhabited ω] in
theorem next_of_scanPos {l : Label ρ w ω} (h : s.producer.scanPos = none) :
    o.next cfg s l = o := by
  unfold Watch.next
  split
  · next hpc => simp only [RingProducer.scanPos, hpc] at h; cases h
  · next hpc => simp only [RingProducer.scanPos, hpc] at h; cases h
  · rfl

omit [DecidableEq ρ] [Inhabited ω] in
theorem next_of_quiet {l : Label ρ w ω}
    (h : (∃ k i min, s.producer.pc = .scanActive k i min ∧ i < cfg.maxReaders) ∨
      ∃ k i min, s.producer.pc = .scanPid k i min) : o.next cfg s l = o := by
  unfold Watch.next
  rcases h with ⟨k, i, min, hpc, hi⟩ | ⟨k, i, min, hpc⟩
  · rw [hpc]
    split
    · next heq => cases heq
    · next heq => cases heq; rw [if_pos hi]
    · rfl
  · rw [hpc]
    split
    · next heq => cases heq
    · next heq => cases heq
    · rfl

omit [DecidableEq ρ] [Inhabited ω] in
theorem next_load {k : GateReturn (Payload w ω)} {i : ℕ} {min : Option ℕ}
    (h : s.producer.pc = .scanCursor k i min) :
    o.next cfg s (.producer .tick) =
      { o with seen := fun r => o.seen r || decide ((s.readers r).activeSlot = some i) } := by
  simp only [Watch.next, h]

omit [DecidableEq ρ] [Inhabited ω] in
theorem next_gate {k : GateReturn (Payload w ω)} {i : ℕ} {min : Option ℕ}
    (h : s.producer.pc = .scanActive k i min) (hi : cfg.maxReaders ≤ i) :
    o.next cfg s (.producer .tick) =
      { seen := fun _ => false
        observed := fun r =>
          if o.observed r = none ∧ o.seen r ∧ (s.readers r).activeSlot ≠ none then some s.producer.seq
          else o.observed r } := by
  simp only [Watch.next, h]
  rw [if_neg (Nat.not_lt.mpr hi)]

omit [DecidableEq ρ] [Inhabited ω] in
theorem holds_of_activeSlot {x : Reader w ω} {i : ℕ} (h : x.activeSlot = some i) :
    x.holds = some i := by
  unfold Reader.activeSlot at h
  split at h
  · exact h
  · exact h
  · cases h

omit [Inhabited ω] in
theorem activeSlot_of_retired {x : Reader w ω} (h : retired x = true) : x.activeSlot = none := by
  cases x with
  | dropping | gone => rfl
  | absent | opening | registering | attached | slotReader => cases h

omit [DecidableEq ρ] [Inhabited ω] in
/-- A guarded reader owns its slot, which is active. -/
theorem Guarded.own {r : ρ} {i : ℕ} (h : s.Guarded r i) (hreg : s.RegInv cfg) :
    (s.readers r).holds = some i ∧ i < cfg.maxReaders ∧ (s.mem.regs i).active = 1 ∧
      (s.mem.regs i).pid ≠ 0 := by
  have hown := hreg.own r h.alive
  have hslot := h.slot
  have hheld := holds_of_activeSlot hslot
  refine ⟨hheld, (hown.1 i hheld).1, ?_, (hreg.pid_alive h.alive hheld).1⟩
  unfold Reader.activeSlot at hslot
  split at hslot
  · next hx =>
    rw [hx] at hown
    cases hslot
    exact hown.2.1
  · next hx =>
    rw [hx] at hown
    cases hslot
    exact hown.2.1
  · cases hslot

omit [DecidableEq ρ] in
/-- A reader whose registration is active stays so until it is dropped, in the same slot, and its
registered cursor only moves forward. -/
theorem ReaderMove.active {l : Label ρ w ω} {r : ρ} {x : Reader w ω} {regs : ℕ → ReaderSlot}
    {i : ℕ} (hinv : s.Inv cfg) (hreg : s.RegInv cfg) (hm : ReaderMove cfg s l r x regs)
    (hslot : (s.readers r).activeSlot = some i) :
    (x.activeSlot = some i ∧ (s.mem.regs i).cursorSeq ≤ (regs i).cursorSeq) ∨
      System.retired x = true := by
  cases hm with
  | attach _ _ absent | readSlot _ absent =>
    rw [absent] at hslot
    cases hslot
  | step a label alive next =>
    have hown := hreg.own r alive
    have he := Reader.step_regEffect (view_truthful hinv.ring) rfl rfl (hinv.readers r) next
    generalize s.readers r = y at he hslot hown
    cases he with
    | attach pid cursor lapped j => exact .inl ⟨hslot, le_refl _⟩
    | consume pid slot c c' stored le store =>
      refine .inl ⟨hslot, ?_⟩
      cases hslot
      rcases store with rfl | rfl
      · exact le_refl _
      · simp only [Reader.storeCursor, updateCursor, Function.update_self]
        exact hown.2.2.2
    | released => exact .inr rfl
    | pass pid cursor lapped pc pc' free search =>
      rw [holds_of_activeSlot hslot] at free
      cases free
    | resolve | look | claim | hide | place | activate | refuse | degrade | deactivate | release
    | read => cases hslot
  | drop alive next same =>
    right
    cases hx : s.readers r with
    | attached pid slot c =>
      rw [hx] at next hslot
      cases hslot
      simp only [Reader.drop] at next
      split at next <;> cases next
      rfl
    | absent | opening | registering | dropping | gone | slotReader =>
      rw [hx] at next
      cases next

/-- What the next step leaves of a reader whose registration is active. -/
theorem active_step {l : Label ρ w ω} {r : ρ} (hinv : s.Inv cfg) (hreg : s.RegInv cfg)
    (hstep : s.step cfg l = some s')
    (h : (s.readers r).activeSlot ≠ none ∨ retired (s.readers r) = true) :
    ((s'.readers r).activeSlot ≠ none ∨ retired (s'.readers r) = true) ∧
      ∀ i, s'.Guarded r i → s.Guarded r i ∧
        (s.mem.regs i).cursorSeq ≤ (s'.mem.regs i).cursorSeq := by
  rcases h with hactive | hret
  · obtain ⟨i, hslot⟩ := Option.ne_none_iff_exists'.mp hactive
    cases step_move hstep with
    | producer a mem producer hp next =>
      subst next
      -- the producer reclaims slots of dead processes only
      refine ⟨.inl hactive, fun j hj => ?_⟩
      have hg : s.Guarded r j := ⟨hj.slot, hj.alive⟩
      refine ⟨hg, ?_⟩
      simp only [hreg.producer_regs_eq hp hg.alive (hg.own hreg).1, le_refl]
    | die q next =>
      subst next
      -- a reader that lives after the death of `q` lived before it
      exact ⟨.inl hactive, fun j hj => ⟨⟨hj.slot, Reader.alive_of_die hj.alive⟩, le_refl _⟩⟩
    | reader r₀ x regs hm next =>
      subst next
      -- another reader never stores to this slot
      have hmove := hm.regMove hinv hreg
      rcases eq_or_ne r r₀ with rfl | hne
      · simp only [Function.update_self]
        rcases hm.active hinv hreg hslot with ⟨hx, hmono⟩ | hret
        · refine ⟨.inl (by rw [hx]; exact Option.some_ne_none i), fun j hj => ?_⟩
          have hj' := hj.slot
          simp only [Function.update_self, hx, Option.some.injEq] at hj'
          subst hj'
          exact ⟨⟨hslot, hmove.alive⟩, hmono⟩
        · refine ⟨.inr hret, fun j hj => ?_⟩
          have hj' := hj.slot
          simp only [Function.update_self, activeSlot_of_retired hret] at hj'
          cases hj'
      · simp only [Function.update_of_ne hne]
        refine ⟨.inl hactive, fun j hj => ?_⟩
        have hg : s.Guarded r j := by
          have h₁ := hj.slot
          have h₂ := hj.alive
          simp only [Function.update_of_ne hne] at h₁ h₂
          exact ⟨h₁, h₂⟩
        refine ⟨hg, ?_⟩
        simp only [hmove.untouched j (hreg.not_touches hne.symm hmove.alive hg.alive
          (hg.own hreg).1), le_refl]
  · have hret' := retired_step hstep hret
    refine ⟨.inr hret', fun i hi => ?_⟩
    have hslot := hi.slot
    rw [activeSlot_of_retired hret'] at hslot
    cases hslot

/-- A step that is not the producer's leaves the gate and the watch alone. -/
theorem GateInv.other {l : Label ρ w ω} (hinv : s.Inv cfg) (hreg : s.RegInv cfg)
    (h : s.GateInv cfg o) (hstep : s.step cfg l = some s') (hprod : s'.producer = s.producer) :
    s'.GateInv cfg o := by
  have hback {r : ρ} (hseen : o.seen r = true ∨ o.observed r ≠ none) :=
    active_step hinv hreg hstep (h.attached r hseen)
  refine ⟨hprod ▸ h.flow, hprod ▸ h.open_gate, fun r i S hg hobs => ?_,
    fun r i hg hseen => ?_, fun r i j min hg hobs hpos hlt => ?_,
    fun r hr => (hback hr).1⟩
  · obtain ⟨hg', hmono⟩ := (hback (.inr (by rw [hobs]; exact Option.some_ne_none S))).2 i hg
    obtain ⟨hlimit, hseq⟩ := h.limit r i S hg' hobs
    rw [hprod]
    exact ⟨hlimit.trans (Nat.add_le_add_right hmono _),
      hseq.imp_right fun hle => hle.trans (Nat.add_le_add_right hmono _)⟩
  · obtain ⟨hg', hmono⟩ := (hback (.inl hseen)).2 i hg
    obtain ⟨j, min, hpos, hlt, m, hmin, hle⟩ := h.seen r i hg' hseen
    rw [hprod]
    exact ⟨j, min, hpos, hlt, m, hmin, hle.trans hmono⟩
  · obtain ⟨hg', -⟩ := (hback (.inr hobs)).2 i hg
    rw [hprod] at hpos
    exact h.scanned r i j min hg' hobs hpos hlt

omit [DecidableEq ρ] [Inhabited ω] in
/-- A step inside a scan moves neither the gate nor the next sequence: what is left to show is what
the scan has seen. -/
theorem GateInv.scanning {mem : Shared w ω} {producer : RingProducer w ω} {o' : Watch ρ}
    (h : s.GateInv cfg o) (hflow : producer.flowControl = cfg.flowControl)
    (hback : ∀ r i, Guarded { s with mem := mem, producer := producer } r i →
      s.Guarded r i ∧ mem.regs i = s.mem.regs i)
    (limit : producer.gateLimit = s.producer.gateLimit) (seq : producer.seq = s.producer.seq)
    (idle : producer.writes = false) (observed : o'.observed = o.observed)
    (seen : ∀ r i, s.Guarded r i → o'.seen r = true →
      ∃ j min, producer.scanPos = some (j, min) ∧ i < j ∧
        ∃ m, min = some m ∧ m ≤ (s.mem.regs i).cursorSeq)
    (scanned : ∀ r i j min, s.Guarded r i → o.observed r ≠ none →
      producer.scanPos = some (j, min) → i < j → o'.seen r = true)
    (attached : ∀ r, o'.seen r = true ∨ o'.observed r ≠ none →
      (s.readers r).activeSlot ≠ none ∨ retired (s.readers r) = true) :
    GateInv cfg { s with mem := mem, producer := producer } o' := by
  refine ⟨hflow, fun _ hw => ?_, fun r i S hg hobs => ?_, fun r i hg hseen => ?_,
    fun r i j min hg hobs hpos hlt => ?_, attached⟩
  · cases idle.symm.trans hw
  · obtain ⟨hg, hregs⟩ := hback r i hg
    rw [observed] at hobs
    simp only [limit, seq, hregs]
    exact h.limit r i S hg hobs
  · obtain ⟨hg, hregs⟩ := hback r i hg
    simp only [hregs]
    exact seen r i hg hseen
  · rw [observed] at hobs
    exact scanned r i j min (hback r i hg).1 hobs hpos hlt

omit [DecidableEq ρ] [Inhabited ω] in
/-- A step of the producer, for the readers it can see. -/
theorem GateInv.producer {a : ProducerLabel w ω} {mem : Shared w ω} {producer : RingProducer w ω}
    (hcfg : cfg.flowControl = .losslessBackpressure) (hreg : s.RegInv cfg) (h : s.GateInv cfg o)
    (hp : s.producer.step cfg.cap cfg.maxReaders s.alive s.mem a = some (mem, producer)) :
    GateInv cfg { s with mem := mem, producer := producer } (o.next cfg s (.producer a)) := by
  -- what is guarded was guarded before, and its registry slot stays as it is
  have hback (r : ρ) (i : ℕ) (hg : Guarded { s with mem := mem, producer := producer } r i) :
      s.Guarded r i ∧ mem.regs i = s.mem.regs i := by
    have hg' : s.Guarded r i := ⟨hg.slot, hg.alive⟩
    exact ⟨hg', hreg.producer_regs_eq hp hg'.alive (hg'.own hreg).1⟩
  have hflow := (RingProducer.step_flowControl hp).trans h.flow
  cases RingProducer.step_gateEffect hp with
  | other pos pos' limit seq write =>
    rw [next_of_scanPos pos]
    refine ⟨hflow, fun _ hw => ?_, fun r i S hg hobs => ?_, fun r i hg hseen => ?_,
      fun r i j min hg hobs hpos hlt => ?_, h.attached⟩
    · obtain ⟨hseq, hwas | hopen⟩ := write hw
      · simp only [hseq, limit]
        exact h.open_gate hcfg hwas
      · simp only [hseq, limit]
        exact hopen (h.flow.trans hcfg)
    · obtain ⟨hg, hregs⟩ := hback r i hg
      obtain ⟨hlimit, hold⟩ := h.limit r i S hg hobs
      have hi := (hg.own hreg).2.1
      simp only [limit, hregs]
      refine ⟨hlimit, ?_⟩
      rcases seq with hsame | ⟨hnext, hw⟩
      · rw [hsame]
        exact hold
      · -- a message is stored only below the limit
        have hopen := h.open_gate hcfg hw
        right
        omega
    · obtain ⟨j, min, hpos, -⟩ := h.seen r i (hback r i hg).1 hseen
      rw [pos] at hpos
      cases hpos
    · simp only at hpos
      rcases pos' with hnone | hzero
      · rw [hnone] at hpos
        cases hpos
      · rw [hzero] at hpos
        cases hpos
        exact absurd hlt (Nat.not_lt_zero i)
  | stay pos limit seq idle' pc =>
    rw [next_of_quiet pc]
    refine h.scanning hflow hback limit seq idle' rfl (fun r i hg hseen => ?_)
      (fun r i j min hg hobs hpos hlt => ?_) h.attached
    · rw [pos]
      exact h.seen r i hg hseen
    · rw [pos] at hpos
      exact h.scanned r i j min hg hobs hpos hlt
  | skip j min pos pos' pc absent limit seq idle' =>
    rw [next_of_quiet pc]
    refine h.scanning hflow hback limit seq idle' rfl (fun r i hg hseen => ?_)
      (fun r i j' min' hg hobs hpos hlt => ?_) h.attached
    · obtain ⟨j', min', hpos, hlt, hm⟩ := h.seen r i hg hseen
      rw [pos] at hpos
      cases hpos
      exact ⟨j + 1, min, pos', hlt.trans (Nat.lt_succ_self j), hm⟩
    · cases pos'.symm.trans hpos
      rcases Nat.lt_succ_iff_lt_or_eq.mp hlt with hlt | rfl
      · exact h.scanned r i j min hg hobs pos hlt
      · -- the slot of a guarded reader is not passed over
        obtain ⟨-, -, hactive, hpid⟩ := hg.own hreg
        exact absent.elim (absurd hactive) (fun h0 => absurd h0 hpid)
  | load k j min pc tick pos' limit seq idle' =>
    subst tick
    rw [next_load pc]
    have hpos₀ : s.producer.scanPos = some (j, min) := by simp only [RingProducer.scanPos, pc]
    refine h.scanning hflow hback limit seq idle' rfl (fun r i hg hseen => ?_)
      (fun r i j' min' hg hobs hpos hlt => ?_) (fun r hr => ?_)
    · refine ⟨j + 1, _, pos', ?_⟩
      simp only [hg.slot, Option.some.injEq, Bool.or_eq_true, decide_eq_true_eq] at hseen
      rcases hseen with hseen | rfl
      · obtain ⟨j', min', hpos, hlt, hm⟩ := h.seen r i hg hseen
        cases hpos₀.symm.trans hpos
        exact ⟨hlt.trans (Nat.lt_succ_self j), _, rfl, RingProducer.minSeq_le hm⟩
      · exact ⟨Nat.lt_succ_self i, _, rfl, RingProducer.minSeq_le_right min _⟩
    · cases pos'.symm.trans hpos
      simp only [hg.slot, Option.some.injEq, Bool.or_eq_true, decide_eq_true_eq]
      rcases Nat.lt_succ_iff_lt_or_eq.mp hlt with hlt | rfl
      · exact .inl (h.scanned r i j min hg hobs hpos₀ hlt)
      · exact .inr rfl
    · simp only [Bool.or_eq_true, decide_eq_true_eq] at hr
      rcases hr with (hr | hr) | hr
      · exact h.attached r (.inl hr)
      · left
        rw [hr]
        exact Option.some_ne_none j
      · exact h.attached r (.inr hr)
  | gate k j min pc tick last pos' limit seq write =>
    subst tick
    rw [next_gate pc last]
    have hpos₀ : s.producer.scanPos = some (j, min) := by simp only [RingProducer.scanPos, pc]
    refine ⟨hflow, fun _ hw => .inl (write hw), fun r i S hg hobs => ?_,
      fun r i hg hseen => (by cases hseen), fun r i j' min' hg hobs hpos hlt => ?_,
      fun r hr => ?_⟩
    · obtain ⟨hg, hregs⟩ := hback r i hg
      simp only [limit, seq, hregs]
      simp only at hobs
      split_ifs at hobs with hnew
      · -- the scan that just ended is the first to see this reader
        cases hobs
        obtain ⟨j', min', hpos, -, hm⟩ := h.seen r i hg hnew.2.1
        rw [hpos₀] at hpos
        cases hpos
        exact ⟨RingProducer.limit_le hm, .inl (le_refl _)⟩
      · have hold := h.limit r i S hg hobs
        have hseen := h.scanned r i j min hg (by rw [hobs]; exact Option.some_ne_none S) hpos₀
          ((hg.own hreg).2.1.trans_le last)
        obtain ⟨j', min', hpos, -, hm⟩ := h.seen r i hg hseen
        rw [hpos₀] at hpos
        cases hpos
        exact ⟨RingProducer.limit_le hm, hold.2⟩
    · simp only [pos'] at hpos
      cases hpos
    · rcases hr with hr | hr
      · cases hr
      · simp only at hr
        split_ifs at hr with hnew
        · exact .inl hnew.2.2
        · exact h.attached r (.inr hr)

/-- **Every step keeps the gate within a ring of the observed readers' cursors.** -/
theorem GateInv.step {l : Label ρ w ω} (hcfg : cfg.flowControl = .losslessBackpressure)
    (hinv : s.Inv cfg) (hreg : s.RegInv cfg) (h : s.GateInv cfg o)
    (hstep : s.step cfg l = some s') : s'.GateInv cfg (o.next cfg s l) := by
  cases l with
  | producer a =>
    simp only [System.step] at hstep
    split at hstep <;> cases hstep
    next mem producer hp => exact h.producer hcfg hreg hp
  | attach | readSlot | reader | drop | die =>
    exact h.other hinv hreg hstep (step_producer_eq (by rintro a ⟨⟩) hstep).1

omit [DecidableEq ρ] in
theorem GateInv.create (ρ : Type) (w : ℕ) (cfg : Config) :
    (create (ω := ω) ρ w cfg).GateInv cfg .start where
  flow := rfl
  open_gate := by rintro _ ⟨⟩
  limit := by rintro r i S hg ⟨⟩
  seen := by rintro r i hg ⟨⟩
  scanned := fun r i j min hg hobs => absurd rfl hobs
  attached := by
    rintro r (hr | hr)
    · cases hr
    · exact absurd rfl hr

/-! ## What an observed reader keeps -/

/-- The invariants of the system and of the watch together. -/
structure WatchInv (cfg : Config) (x : System ρ w ω × Watch ρ) : Prop where
  inv : x.1.Inv cfg
  reg : x.1.RegInv cfg
  gate : x.1.GateInv cfg x.2

theorem watchStep_eq_some {x y : System ρ w ω × Watch ρ} {l : Label ρ w ω} :
    watchStep cfg x l = some y ↔ x.1.step cfg l = some y.1 ∧ y.2 = x.2.next cfg x.1 l := by
  unfold watchStep
  rw [Option.map_eq_some_iff]
  constructor
  · rintro ⟨s', hs', rfl⟩
    exact ⟨hs', rfl⟩
  · rintro ⟨hs', ho⟩
    exact ⟨y.1, hs', Prod.ext rfl ho.symm⟩

/-- Watching changes nothing. -/
theorem watchStep_run {x y : System ρ w ω × Watch ρ} {as : List (Label ρ w ω)}
    (h : Transition.run (watchStep cfg) x as = some y) :
    Transition.run (step cfg) x.1 as = some y.1 := by
  induction as generalizing x with
  | nil =>
    cases h
    rfl
  | cons a as ih =>
    obtain ⟨z, hz, hrest⟩ := Transition.run_cons_eq_some.mp h
    exact Transition.run_cons_eq_some.mpr ⟨z.1, (watchStep_eq_some.mp hz).1, ih hrest⟩

theorem WatchInv.step {x y : System ρ w ω × Watch ρ} {l : Label ρ w ω}
    (hcfg : cfg.flowControl = .losslessBackpressure) (h : WatchInv cfg x)
    (hstep : watchStep cfg x l = some y) : WatchInv cfg y := by
  obtain ⟨hs, ho⟩ := watchStep_eq_some.mp hstep
  refine ⟨h.inv.step hs, h.reg.step h.inv hs, ?_⟩
  rw [ho]
  exact h.gate.step hcfg h.inv h.reg hs

theorem WatchInv.reaches {x : System ρ w ω × Watch ρ}
    (hcfg : cfg.flowControl = .losslessBackpressure)
    (h : Transition.Reaches (watchStep cfg) (System.create ρ w cfg, .start) x) : WatchInv cfg x :=
  h.invariant (fun hx hstep => hx.step hcfg hstep)
    ⟨.create ρ w cfg, .create ρ w cfg, .create ρ w cfg⟩

omit [DecidableEq ρ] [Inhabited ω] in
/-- A reader once observed stays so. -/
theorem observed_next {l : Label ρ w ω} {r : ρ} {S : ℕ} (h : o.observed r = some S) :
    (o.next cfg s l).observed r = some S := by
  unfold Watch.next
  split
  · exact h
  · split_ifs
    · exact h
    · simp only [h]
      rw [if_neg (fun hc => Option.some_ne_none S hc.1)]
  · exact h

omit [DecidableEq ρ] [Inhabited ω] in
/-- **Retention.** A message that was still retained at the scan, or came later, stays in its slot
until the registered cursor passes it. -/
theorem WatchInv.retained {x : System ρ w ω × Watch ρ} (h : WatchInv cfg x)
    (hcfg : cfg.flowControl = .losslessBackpressure) {r : ρ} {pid i S k : ℕ}
    {c : RingConsumer w ω} (hr : x.1.readers r = .attached pid (some i) c)
    (halive : x.1.alive pid = true) (hobs : x.2.observed r = some S)
    (hk : (x.1.mem.regs i).cursorSeq ≤ k) (hS : S ≤ k + cfg.cap.val)
    (hlt : k < x.1.producer.seq) :
    ∃ d, x.1.producer.message k = some d ∧ x.1.mem.slots (slotIndex cfg.cap k) = ⟨k, d⟩ := by
  have hg : x.1.Guarded r i := ⟨by rw [hr]; rfl, by rw [hr]; exact halive⟩
  obtain ⟨hlimit, hseq⟩ := h.gate.limit r i S hg hobs
  have hown := h.reg.own r (by rw [hr]; exact halive)
  rw [hr] at hown
  obtain ⟨hheld, -, hpos, -⟩ := hown
  have hi := (hheld i rfl).1
  obtain ⟨hword, hmsg⟩ := h.inv.ring.slot_eq (hpos.trans hk) hlt (by omega) (by
    -- a slot is overwritten only below the limit
    intro heq
    by_contra hw
    have hwrites : x.1.producer.writes = true := by
      unfold RingProducer.writing at hw
      unfold RingProducer.writes
      split at hw <;> simp_all
    have hopen := h.gate.open_gate hcfg hwrites
    omega)
  refine ⟨_, hmsg, ?_⟩
  cases hslot : x.1.mem.slots (slotIndex cfg.cap k) with
  | mk seq data =>
    rw [hslot] at hword
    subst hword
    rfl

/-- How an observed reader moved since it was the consumer `c`: what it returned is right, and
what it counted as lapped was gone when the scan saw it. -/
structure Kept (cap : Capacity) (v : View w ω) (S : ℕ) (c c' : RingConsumer w ω) : Prop where
  moves : ∃ D L J, c.toAccount.Advance c'.toAccount D L J ∧
    (∀ k d, (k, d) ∈ D → v.message k = some d) ∧ ∀ k ∈ L, k + cap.val < S

/-- The observed reader `r` since it was the consumer `c`. -/
def KeptSince (cfg : Config) (r : ρ) (S : ℕ) (c : RingConsumer w ω)
    (x : System ρ w ω × Watch ρ) : Prop :=
  x.2.observed r = some S ∧ (retired (x.1.readers r) = true ∨
    ∃ pid i c', x.1.readers r = .attached pid (some i) c' ∧ Kept cfg.cap x.1.view S c c')

theorem KeptSince.step {x y : System ρ w ω × Watch ρ} {l : Label ρ w ω} {r : ρ} {S : ℕ}
    {c : RingConsumer w ω} (hinv : WatchInv cfg x) (h : KeptSince cfg r S c x)
    (hstep : watchStep cfg x l = some y) : KeptSince cfg r S c y := by
  obtain ⟨hs, ho⟩ := watchStep_eq_some.mp hstep
  obtain ⟨hobs, hcase⟩ := h
  refine ⟨by rw [ho]; exact observed_next hobs, ?_⟩
  rcases hcase with hret | ⟨pid, i, c', hr, ⟨D, L, J, hadv, hD, hL⟩⟩
  · exact .inl (retired_step hs hret)
  obtain ⟨hev, hmove⟩ := consumer_step hinv.inv hs hr
  rcases hmove with hr' | ⟨a, c'', stored, -, hlive, hr', hview, hc⟩ | ⟨j, hr'⟩ | hr'
  · exact .inr ⟨pid, i, c', hr', D, L, J, hadv, fun k d hm => hev.message k d (hD k d hm), hL⟩
  · have hcinv := hinv.inv.readers r
    rw [hr] at hcinv
    obtain ⟨D', L', J', hadv', hD', hL', -⟩ := hcinv.advance (view_truthful hinv.inv.ring) hc
    refine .inr ⟨pid, i, c'', hr', D ++ D', L ++ L', J ++ J', hadv.trans hadv', fun k d hm => ?_,
      fun k hk => ?_⟩
    · rw [hview]
      exact (List.mem_append.mp hm).elim (hD k d) (hD' k d)
    · rcases List.mem_append.mp hk with hk | hk
      · exact hL k hk
      · -- a message a full ring later exists, and the gate kept it within a ring of the cursor
        obtain ⟨q, hq, hstored⟩ := hL' k hk
        have hlt : q < x.1.producer.seq := hstored.2
        have hle := (hadv'.mem_range (List.mem_append_left _ (List.mem_append_right _ hk))).1
        have hg : x.1.Guarded r i := ⟨by rw [hr]; rfl, by rw [hr]; exact hlive⟩
        have hseq := (hinv.gate.limit r i S hg hobs).2
        have hown := hinv.reg.own r (by rw [hr]; exact hlive)
        rw [hr] at hown
        have hcursor := hown.2.2.2
        omega
  · exact .inl (by rw [hr']; rfl)
  · exact .inl (by rw [hr']; rfl)

end System

variable {ρ : Type} [DecidableEq ρ] [Inhabited ω] {cfg : Config}

/-- **Lossless backpressure.** Once a scan has observed a reader, with `S` the sequence about to be
written: a message from `S - capacity` on that the registered cursor has not passed stays in its
slot, and a read of it succeeds; everything the reader passes from there on it returns once, in
order and with the right payload, unless it jumps; and only what was gone at the scan is counted
as lapped. -/
theorem lossless_backpressure (hcfg : cfg.flowControl = .losslessBackpressure)
    {x y : System ρ w ω × Watch ρ} {as : List (Label ρ w ω)}
    (hx : Transition.Reaches (System.watchStep cfg) (System.create ρ w cfg, .start) x)
    (hrun : Transition.run (System.watchStep cfg) x as = some y) {r : ρ} {S pid i pid' i' : ℕ}
    {c c' : RingConsumer w ω} (hobs : x.2.observed r = some S)
    (hr : x.1.readers r = .attached pid (some i) c)
    (hr' : y.1.readers r = .attached pid' (some i') c') :
    (y.1.alive pid' = true → ∀ k, (y.1.mem.regs i').cursorSeq ≤ k → S ≤ k + cfg.cap.val →
      k < y.1.producer.seq → ∃ d, y.1.producer.pushed[k - 1]? = some d ∧
        y.1.mem.slots (slotIndex cfg.cap k) = ⟨k, d⟩) ∧
    (y.1.alive pid' = true → S ≤ c'.cursor + cfg.cap.val → c'.cursor < y.1.producer.seq →
      ∃ d, y.1.producer.pushed[c'.cursor - 1]? = some d ∧
        readSlot (y.1.mem.slots (slotIndex cfg.cap c'.cursor)) c'.cursor = .item d) ∧
    ∃ D L J, c'.delivered = c.delivered ++ D ∧ c'.lapped = c.lapped ++ L ∧
      c'.jumped = c.jumped ++ J ∧ c'.lappedTotal = c.lappedTotal + (L.length + J.length) ∧
      (∀ k d, (k, d) ∈ D → y.1.producer.pushed[k - 1]? = some d) ∧
      (D.map Prod.fst).Pairwise (· < ·) ∧ (∀ k ∈ L, k + cfg.cap.val < S) ∧
      (S ≤ c.cursor + cfg.cap.val → L = []) ∧
      (∀ k, c.cursor ≤ k → k < c'.cursor → S ≤ k + cfg.cap.val →
        (D.map Prod.fst).count k + J.count k = 1) ∧
      (c.jumping = false → (∀ a ∈ as, System.Receives r a) → J = []) := by
  have hinv := System.WatchInv.reaches hcfg hx
  -- the whole run, from the state in which the producer observed the reader
  have hend := Transition.run_invariant
    (P := fun z => System.WatchInv cfg z ∧ System.KeptSince cfg r S c z) (Q := fun _ => True)
    (fun _ hz hstep => ⟨hz.1.step hcfg hstep, hz.2.step hz.1 hstep⟩) (fun _ _ => trivial)
    ⟨hinv, hobs, .inr ⟨pid, i, c, hr, [], [], [], .refl _, by simp, by simp⟩⟩ hrun
  obtain ⟨hy, hobs', hkept⟩ := hend
  obtain ⟨D, L, J, hadv, hD, hL⟩ :
      ∃ D L J, c.toAccount.Advance c'.toAccount D L J ∧
        (∀ k d, (k, d) ∈ D → y.1.view.message k = some d) ∧ ∀ k ∈ L, k + cfg.cap.val < S := by
    rcases hkept with hret | ⟨pid₁, i₁, c₁, hr₁, hmoves⟩
    · rw [hr'] at hret
      cases hret
    · rw [hr'] at hr₁
      cases hr₁
      exact hmoves.moves
  refine ⟨fun halive k hk hS hlt => hy.retained hcfg hr' halive hobs' hk hS hlt,
    fun halive hS hlt => ?_, D, L, J, hadv.delivered, hadv.lapped, hadv.jumped, hadv.lappedTotal,
    hD, hadv.increasing, hL, fun hS => ?_, fun k hk hk' hS => ?_, fun hidle has => ?_⟩
  · have hown := hy.reg.own r (by rw [hr']; exact halive)
    rw [hr'] at hown
    obtain ⟨d, hmsg, hslot⟩ := hy.retained hcfg hr' halive hobs' hown.2.2.2 hS hlt
    refine ⟨d, hmsg, ?_⟩
    rw [readSlot_eq, hslot, if_pos rfl]
  · apply List.eq_nil_iff_forall_not_mem.mpr
    intro k hk
    have hlost := hL k hk
    have hge := (hadv.mem_range (List.mem_append_left _ (List.mem_append_right _ hk))).1
    omega
  · have hcount := hadv.count_eq_one hk hk'
    have hnot : L.count k = 0 := List.count_eq_zero.mpr fun hmem => absurd (hL k hmem) (by omega)
    omega
  · obtain ⟨bs, hbs⟩ := hx
    obtain ⟨D₁, L₁, -, -, hjumped, -⟩ := (System.accounting cfg r).books
      ⟨bs, System.watchStep_run hbs⟩ (System.consumer_eq_some.mpr ⟨pid, some i, hr⟩) hidle has
      (System.watchStep_run hrun) (System.consumer_eq_some.mpr ⟨pid', some i', hr'⟩)
    have hJ := hadv.jumped
    rw [hjumped] at hJ
    exact List.self_eq_append_right.mp hJ

/-- A lossless ring of one slot and one registered reader. -/
def oneReader : Config := ⟨⟨1, isPowerOfTwo_one⟩, 1, .losslessBackpressure⟩

/-- The scan of the first push observes the reader, which then receives that message. -/
theorem lossless_backpressure_first :
    ∃ (x y : System Unit 1 ℕ × Watch Unit) (c c' : RingConsumer 1 ℕ),
      x.2.observed () = some 1 ∧ x.1.readers () = .attached 1 (some 0) c ∧
      y.1.readers () = .attached 1 (some 0) c' ∧ c.cursor = 1 ∧ c'.cursor = 2 ∧
      ∃ D L J, c'.delivered = c.delivered ++ D ∧ c'.lapped = c.lapped ++ L ∧
        c'.jumped = c.jumped ++ J ∧ L = [] ∧ (D.map Prod.fst).count 1 + J.count 1 = 1 := by
  obtain ⟨x, hx⟩ : ∃ x : System Unit 1 ℕ × Watch Unit,
      Transition.run (System.watchStep oneReader) (System.create Unit 1 oneReader, .start)
        [.attach () 1 .latest, .reader () .tick, .reader () .tick, .reader () .tick,
          .reader () .tick, .reader () .tick, .reader () .tick, .reader () .tick,
          .reader () .tick, .producer (.call (.push fun _ => 7)), .producer .tick,
          .producer .tick, .producer .tick, .producer .tick, .producer .tick] = some x :=
    ⟨_, rfl⟩
  obtain ⟨y, hy⟩ : ∃ y, Transition.run (System.watchStep oneReader) x
      [.producer .tick, .producer (.word 0), .producer .tick, .producer .tick, .producer .tick,
        .reader () (.call .recvStatus), .reader () .tick, .reader () (.word 0),
        .reader () .tick] = some y := by
    cases hx
    exact ⟨_, rfl⟩
  obtain ⟨c, hobs, hr, hcur⟩ : ∃ c, x.2.observed () = some 1 ∧
      x.1.readers () = .attached 1 (some 0) c ∧ c.cursor = 1 := by
    cases hx
    exact ⟨_, rfl, rfl, rfl⟩
  obtain ⟨c', hr', hcur'⟩ : ∃ c', y.1.readers () = .attached 1 (some 0) c' ∧ c'.cursor = 2 := by
    cases hx
    cases hy
    exact ⟨_, rfl, rfl⟩
  obtain ⟨-, -, D, L, J, hD, hL, hJ, -, -, -, -, hnone, hcount, -⟩ :=
    lossless_backpressure rfl ⟨_, hx⟩ hy hobs hr hr'
  have hretained : 1 ≤ c.cursor + oneReader.cap.val := by
    rw [hcur]
    decide
  exact ⟨x, y, c, c', hobs, hr, hr', hcur, hcur', D, L, J, hD, hL, hJ, hnone hretained,
    hcount 1 (by omega) (by omega) (by decide)⟩

end Ringfire
