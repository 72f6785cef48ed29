import Ringfire.Ring.Lossless
import Ringfire.Ring.Ownership
import Ringfire.Ring.Seek

/-!
# A ring whose readers seek

One `RingProducer`, the registry with its registrations and scanning threads as in `Registry`, and
consumers that may also move back. The memory accesses of the producer are those of `System`; what
it sees of a reader is the registry slot, and that follows the cursor in both directions here.

## Main definitions

* `SeekSystem.step`: one memory access of one thread
* `SeekSystem.view`: what the readers see

## Main results

* `SeekSystem.Inv.reaches`: in every reachable state the slots are truthful, live registrations own
  their slots, every consumer's knowledge is right, and the gate is open where the producer writes
-/

namespace Ringfire

variable {ρ κ : Type} {w : ℕ} {ω : Type}

/-- The producer, the registry, and the consumers that hold its registrations. -/
structure SeekSystem (ρ κ : Type) (w : ℕ) (ω : Type) where
  slots : ℕ → Slot w ω
  writeSeq : ℕ
  producer : RingProducer w ω
  registry : Registry ρ κ
  clients : ρ → Option (SeekingConsumer w ω)

/-- Who moves. -/
inductive SeekSystemLabel (ρ κ : Type) (w : ℕ) (ω : Type) where
  | producer (a : ProducerLabel w ω)
  | registry (a : RegistryLabel ρ κ)
  | attach (r : ρ) (lappedTotal : ℕ)
  | client (r : ρ) (a : SeekLabel w)
  | drop (r : ρ)

namespace SeekSystem

/-- A freshly created ring and no reader. -/
def create [Inhabited ω] (ρ κ : Type) (w : ℕ) (cfg : Config) (alive : ℕ → Bool) :
    SeekSystem ρ κ w ω where
  slots := fun _ => ⟨0, fun _ => default⟩
  writeSeq := 0
  producer := .create w ω cfg.flowControl
  registry := .init ρ κ alive
  clients := fun _ => none

/-- The memory the producer shares with the readers. -/
def mem (s : SeekSystem ρ κ w ω) : Shared w ω := ⟨s.slots, s.writeSeq, s.registry.regs⟩

/-- What the readers see, as in `System`. -/
def view (s : SeekSystem ρ κ w ω) : View w ω :=
  (⟨s.mem, s.registry.alive, s.producer, fun _ => .absent⟩ : System ρ w ω).view

/-- The memory and the producer after one of its steps. -/
def setProducer (s : SeekSystem ρ κ w ω) (m : Shared w ω) (p : RingProducer w ω) :
    SeekSystem ρ κ w ω :=
  { s with
    slots := m.slots
    writeSeq := m.writeSeq
    producer := p
    registry := { s.registry with regs := m.regs } }

/-- Consumer `r` and the registry after one of its steps. -/
def setClient [DecidableEq ρ] (s : SeekSystem ρ κ w ω) (r : ρ) (g : Registry ρ κ)
    (x : Option (SeekingConsumer w ω)) : SeekSystem ρ κ w ω :=
  { s with registry := g, clients := Function.update s.clients r x }

/-- One memory access of one thread. -/
def step [DecidableEq ρ] [DecidableEq κ] [Inhabited ω] (cfg : Config) (s : SeekSystem ρ κ w ω) :
    SeekSystemLabel ρ κ w ω → Option (SeekSystem ρ κ w ω)
  | .producer a =>
    (s.producer.step cfg.cap cfg.maxReaders s.registry.alive s.mem a).map fun (m, p) =>
      s.setProducer m p
  | .registry a =>
    if a.others then
      (s.registry.step cfg.maxReaders a).map fun g => { s with registry := g }
    else none
  -- a consumer is registered at its start position, and these are at least one
  | .attach r lappedTotal =>
    match s.clients r, s.registry.handles r with
    | none, .live _ _ cursor =>
      if 1 ≤ cursor then
        some (s.setClient r s.registry (some ⟨.attach false false true cursor lappedTotal, none⟩))
      else none
    | _, _ => none
  | .client r a =>
    match s.clients r with
    | some x =>
      if s.registry.acts r then
        (x.step cfg.cap s.slots s.writeSeq a).map fun (x', stored) =>
          s.setClient r (s.registry.store r stored) (some x')
      else none
    | none => none
  | .drop r =>
    (s.registry.step cfg.maxReaders (.handle r .drop)).map fun g => s.setClient r g none

/-! ## The invariant -/

/-- What holds of the consumer `x` with registration `h`. -/
structure ClientInv (cap : Capacity) (v : View w ω) (h : Handle) (x : SeekingConsumer w ω) :
    Prop where
  registered : x.reader.registered = true
  single : x.reader.multiProducer = false
  live : ∃ pid i p, h = .live pid i p ∧ (x.reader.synced = true → x.reader.cursor = p)
  reader : x.reader.Inv cap v

/-- What holds in every reachable state. -/
structure Inv (cfg : Config) (s : SeekSystem ρ κ w ω) : Prop where
  ring : Consistent cfg.cap s.mem s.producer
  registry : s.registry.Inv cfg.maxReaders
  prune : ∀ k i pid c, s.producer.pc = .pruneReclaim k i pid c → s.registry.alive pid = false
  flow : s.producer.flowControl = cfg.flowControl
  openGate : cfg.flowControl = .losslessBackpressure → s.producer.writes = true →
    s.producer.seq < s.producer.gateLimit ∨ cfg.maxReaders = 0
  clients : ∀ r x, s.clients r = some x → ClientInv cfg.cap s.view (s.registry.handles r) x

/-! ### The consumers -/

section Consumers

variable {cap : Capacity} {v v' : View w ω} {h : Handle} {x x' : SeekingConsumer w ω}

theorem seekTo_inv {c : RingConsumer w ω} (hc : c.Inv cap v) (target writeSeq : ℕ) :
    (c.seekTo cap writeSeq target).Inv cap v := by
  have hsound (c' : RingConsumer w ω) : (c'.settle none).PcSound cap v :=
    RingConsumer.pcSound_of_atSlot (RingConsumer.settle_atSlot c' none)
  unfold RingConsumer.seekTo
  dsimp only
  split_ifs
  · exact ⟨one_le_oldestRetained writeSeq cap.val, hc.dense, hsound _, hc.delivered⟩
  · exact ⟨le_max_right target 1, hc.dense, hsound _, hc.delivered⟩

/-- A consumer's step keeps what holds of it. -/
theorem ClientInv.step [Inhabited ω] {a : SeekLabel w} {stored : Option ℕ} (hv : v.Truthful)
    (hx : ClientInv cap v h x) (hstep : x.step cap v.slots v.writeSeq a = some (x', stored))
    {h' : Handle} (hh : ∀ pid i p, h = .live pid i p → h' = .live pid i (stored.getD p)) :
    ClientInv cap v h' x' := by
  obtain ⟨pid, i, p, hlive, hsync⟩ := hx.live
  refine ⟨(SeekingConsumer.step_registered hstep).trans hx.registered, ?_,
    ⟨pid, i, _, hh pid i p hlive, fun hs => ?_⟩, ?_⟩
  · unfold SeekingConsumer.step at hstep
    split at hstep
    · split at hstep <;> cases hstep
      exact hx.single
    · obtain ⟨⟨reader, st⟩, hr, he⟩ := Option.map_eq_some_iff.mp hstep
      cases he
      exact (congrArg (fun m => m.1) (RingConsumer.step_mode hr)).trans hx.single
    · cases hstep
      unfold RingConsumer.seekTo
      dsimp only
      split_ifs <;> exact hx.single
    · cases hstep
  · obtain ⟨hcursor, rfl | ⟨rfl, hs'⟩⟩ := SeekingConsumer.step_synced hx.registered hstep hs
    · exact hcursor
    · exact hcursor.trans (hsync hs')
  · unfold SeekingConsumer.step at hstep
    split at hstep
    · split at hstep <;> cases hstep
      exact hx.reader
    · obtain ⟨⟨reader, st⟩, hr, he⟩ := Option.map_eq_some_iff.mp hstep
      cases he
      exact hx.reader.step hv hr
    · cases hstep
      exact seekTo_inv hx.reader _ _
    · cases hstep

theorem ClientInv.evolves (hx : ClientInv cap v h x) (he : v.Evolves v') : ClientInv cap v' h x :=
  ⟨hx.registered, hx.single, hx.live, hx.reader.evolves he⟩

end Consumers

/-! ### The producer -/

section Producer

variable {cap : Capacity} {n : ℕ} {alive : ℕ → Bool} {m m' : Shared w ω}
  {p p' : RingProducer w ω} {a : ProducerLabel w ω}

/-- A producer that writes on a lossless ring is below its limit. -/
theorem openGate_step (hstep : p.step cap n alive m a = some (m', p'))
    (hflow : p.flowControl = .losslessBackpressure)
    (h : p.writes = true → p.seq < p.gateLimit ∨ n = 0) (hw : p'.writes = true) :
    p'.seq < p'.gateLimit ∨ n = 0 := by
  cases RingProducer.step_gateEffect hstep with
  | other pos pos' limit seq write =>
    obtain ⟨hseq, hwas | hopen⟩ := write hw
    · rw [hseq, limit]
      exact h hwas
    · rw [hseq, limit]
      exact hopen hflow
  | stay _ _ _ idle' | skip _ _ _ _ _ _ _ _ idle' | load _ _ _ _ _ _ _ _ idle' =>
    rw [idle'] at hw
    cases hw
  | gate _ _ _ _ _ _ _ _ _ write => exact .inl (write hw)

theorem writes_of_writing (h : p.writing ≠ none) : p.writes = true := by
  unfold RingProducer.writing at h
  split at h
  · next item left rest hpc => simp only [RingProducer.writes, hpc]
  · exact absurd rfl h

end Producer

section

variable {cfg : Config} {s s' : SeekSystem ρ κ w ω} {a : SeekSystemLabel ρ κ w ω}

theorem Inv.truthful (h : s.Inv cfg) : s.view.Truthful :=
  System.view_truthful
    (s := (⟨s.mem, s.registry.alive, s.producer, fun _ => .absent⟩ : System ρ w ω)) h.ring

/-- A prune takes no slot from a process that is alive. -/
theorem Inv.regs_eq (h : s.Inv cfg) {a : ProducerLabel w ω} {m : Shared w ω}
    {p : RingProducer w ω}
    (hp : s.producer.step cfg.cap cfg.maxReaders s.registry.alive s.mem a = some (m, p)) {r : ρ}
    {i : ℕ} (hr : s.registry.acts r = true) (hi : (s.registry.handles r).holds = some i) :
    m.regs i = s.registry.regs i := by
  rcases (System.producer_regs hp).1 with hregs | ⟨k, j, pid, c, hpc, hregs⟩
  · exact congrFun hregs i
  · rw [hregs]
    exact System.reclaim_of_ne (h.registry.owner_ne hr hi (.inr (h.prune k j pid c hpc)))

theorem Inv.setProducer (h : s.Inv cfg) {a : ProducerLabel w ω} {m : Shared w ω}
    {p : RingProducer w ω}
    (hp : s.producer.step cfg.cap cfg.maxReaders s.registry.alive s.mem a = some (m, p)) :
    (s.setProducer m p).Inv cfg := by
  have he := RingProducer.step_effect hp
  have hflow := (RingProducer.step_flowControl hp).trans h.flow
  refine ⟨h.ring.step he, ?_, (System.producer_regs hp).2, hflow, fun hcfg hw => ?_,
    fun r x hx => ?_⟩
  · refine ⟨h.registry.zero, fun r hr => ?_, h.registry.apart, h.registry.reclaims⟩
    exact (h.registry.owns r hr).of_eq (fun i hi => h.regs_eq hp hr hi) fun _ hq => hq
  · exact openGate_step hp (h.flow.trans hcfg) (h.openGate hcfg) hw
  · exact (h.clients r x hx).evolves (System.view_evolves
      (s := (⟨s.mem, s.registry.alive, s.producer, fun _ => .absent⟩ : System ρ w ω)) h.ring he)

/-- A consumer moved, attached or was dropped, and perhaps stored its cursor. -/
theorem Inv.setClient [DecidableEq ρ] (h : s.Inv cfg) {r : ρ} {g : Registry ρ κ}
    {x : Option (SeekingConsumer w ω)} (hg : g.Inv cfg.maxReaders)
    (hdead : ∀ pid, s.registry.alive pid = false → g.alive pid = false)
    (hothers : ∀ r', r' ≠ r → g.handles r' = s.registry.handles r')
    (hx : ∀ y, x = some y → ClientInv cfg.cap s.view (g.handles r) y) :
    (s.setClient r g x).Inv cfg := by
  refine ⟨h.ring.setRegs g.regs, hg,
    fun k i pid c hpc => hdead pid (h.prune k i pid c hpc), h.flow, h.openGate,
    fun r' y hy => ?_⟩
  simp only [SeekSystem.setClient] at hy ⊢
  rcases eq_or_ne r' r with rfl | hne
  · rw [Function.update_self] at hy
    exact hx y hy
  · rw [Function.update_of_ne hne] at hy
    rw [hothers r' hne]
    exact h.clients r' y hy

variable [DecidableEq ρ] [DecidableEq κ] [Inhabited ω]

/-- **Every step keeps the invariant.** -/
theorem Inv.step (h : s.Inv cfg) (hstep : s.step cfg a = some s') : s'.Inv cfg := by
  cases a with
  | producer a =>
    obtain ⟨⟨m, p⟩, hp, rfl⟩ := Option.map_eq_some_iff.mp hstep
    exact h.setProducer hp
  | registry a =>
    simp only [SeekSystem.step] at hstep
    split_ifs at hstep with hothers
    obtain ⟨g, hg, rfl⟩ := Option.map_eq_some_iff.mp hstep
    refine ⟨h.ring.setRegs g.regs, h.registry.step hg,
      fun k i pid c hpc => ?_, h.flow, h.openGate, fun r x hx => ?_⟩
    · exact Registry.step_dead hg (h.prune k i pid c hpc)
    · obtain ⟨hreg, hsingle, ⟨pid, i, p, hlive, hsync⟩, hreader⟩ := h.clients r x hx
      exact ⟨hreg, hsingle, ⟨pid, i, p, Registry.step_live hothers hg hlive, hsync⟩, hreader⟩
  | attach r lappedTotal =>
    simp only [SeekSystem.step] at hstep
    split at hstep
    · next pid i cursor hnone hlive =>
      split_ifs at hstep with hpos
      cases hstep
      refine h.setClient h.registry (fun _ hq => hq) (fun _ _ => rfl) ?_
      rintro y ⟨⟩
      exact ⟨rfl, rfl, ⟨pid, i, cursor, hlive, fun _ => rfl⟩, .attach hpos⟩
    · cases hstep
  | client r a =>
    simp only [SeekSystem.step] at hstep
    split at hstep
    · next x hx =>
      split_ifs at hstep with hacts
      obtain ⟨⟨x', stored⟩, hx', rfl⟩ := Option.map_eq_some_iff.mp hstep
      refine h.setClient (h.registry.store hacts) (fun _ hq => ?_)
        (fun _ hne => Registry.store_handles_of_ne hne) ?_
      · rw [Registry.store_alive]
        exact hq
      · rintro y ⟨⟩
        exact (h.clients r x hx).step h.truthful hx' fun pid i p hlive =>
          Registry.store_handles hlive
    · cases hstep
  | drop r =>
    obtain ⟨g, hg, rfl⟩ := Option.map_eq_some_iff.mp hstep
    refine h.setClient (h.registry.step hg) (fun _ hq => Registry.step_dead hg hq)
      (fun r' hne => ?_) (by rintro y ⟨⟩)
    simp only [Registry.step] at hg
    split_ifs at hg
    obtain ⟨⟨x, regs⟩, -, rfl⟩ := Option.map_eq_some_iff.mp hg
    exact Function.update_of_ne hne _ _

omit [DecidableEq ρ] [DecidableEq κ] in
theorem create_inv (alive : ℕ → Bool) : (create (ω := ω) ρ κ w cfg alive).Inv cfg where
  ring := .create cfg.flowControl _ _
  registry := Registry.init_inv alive
  prune := by rintro k i pid c ⟨⟩
  flow := rfl
  openGate := by rintro _ ⟨⟩
  clients := by rintro r x ⟨⟩

/-- **The invariant holds in every reachable state.** -/
theorem Inv.reaches {alive : ℕ → Bool}
    (h : Transition.Reaches (SeekSystem.step cfg) (create ρ κ w cfg alive) s) : s.Inv cfg :=
  h.invariant (fun hs hstep => hs.step hstep) (create_inv alive)

end

end SeekSystem

end Ringfire
