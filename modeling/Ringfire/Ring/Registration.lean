import Ringfire.Ring.System

/-!
# Who owns a registry slot

A live reader owns its registry slot from the compare-and-swap in `register` until it releases
the slot: nobody else's step changes it. What makes this work is that a slot is taken only from
nobody or from a dead process, and that the process found dead stays dead.

## Main definitions

* `Reader.holds`: the registry slot a reader owns
* `System.RegInv`: live readers own their slots exclusively, and the slot of an attached one is
  active and carries its cursor

## Main results

* `System.RegInv.step`: every step of the system preserves it
* `Reader.step_untouched`: a reader's step changes no slot but its own and the one it claims
-/

namespace Ringfire

variable {w : ℕ} {ω : Type}

namespace Reader

/-- The reader's process. -/
def pid : Reader w ω → Option ℕ
  | opening pid _ | registering pid _ _ _ | attached pid _ _ | dropping pid _ _ => some pid
  | _ => none

/-- The registry slot the reader owns. -/
def holds : Reader w ω → Option ℕ
  | registering _ _ _ (.hide i) | registering _ _ _ (.place i) => some i
  | registering _ _ _ (.activate i) | registering _ _ _ (.registered i) => some i
  | attached _ slot _ => slot
  | dropping _ i .deactivate | dropping _ i .release => some i
  | _ => none

/-- What holds of a live reader's slot in a registry of `n` slots. -/
def RegInv (n : ℕ) (regs : ℕ → ReaderSlot) (x : Reader w ω) : Prop :=
  (∀ i, x.holds = some i → i < n ∧ some (regs i).pid = x.pid) ∧
  match x with
  | registering _ cursor _ (.activate i) => (regs i).cursorSeq = cursor
  | registering _ cursor _ (.registered i) => (regs i).active = 1 ∧ (regs i).cursorSeq = cursor
  | attached _ (some i) c => (regs i).active = 1 ∧ 1 ≤ (regs i).cursorSeq ∧
      (regs i).cursorSeq ≤ c.cursor
  | _ => True

/-- The reader's next step may change registry slot `i`. -/
def Touches (regs : ℕ → ReaderSlot) (x : Reader w ω) (i : ℕ) : Prop :=
  x.holds = some i ∨ ∃ pid cursor lapped seen,
    x = registering pid cursor lapped (.claim i seen) ∧ (regs i).pid = seen

/-- The process seen in a slot about to be claimed is dead, or there was none. -/
def ClaimInv (n : ℕ) (isAlive : ℕ → Bool) : Reader w ω → Prop
  | registering _ _ _ (.claim i seen) => i < n ∧ (seen = 0 ∨ isAlive seen = false)
  | _ => True

theorem ClaimInv.mono {n : ℕ} {isAlive isAlive' : ℕ → Bool} {x : Reader w ω}
    (h : x.ClaimInv n isAlive) (hdead : ∀ q, isAlive q = false → isAlive' q = false) :
    x.ClaimInv n isAlive' := by
  unfold ClaimInv at *
  split at h
  · exact h.imp_right (Or.imp_right (hdead _))
  · trivial

theorem RegInv.of_eq {n : ℕ} {regs regs' : ℕ → ReaderSlot} {x : Reader w ω}
    (h : x.RegInv n regs) (heq : ∀ i, x.holds = some i → regs' i = regs i) : x.RegInv n regs' := by
  refine ⟨fun i hi => ?_, ?_⟩
  · rw [heq i hi]
    exact h.1 i hi
  · obtain ⟨-, h⟩ := h
    split at h
    · rw [heq _ rfl]
      exact h
    · rw [heq _ rfl]
      exact h
    · rw [heq _ rfl]
      exact h
    · trivial

/-- What a reader's step does to the registry. -/
inductive RegEffect (cfg : Config) (isAlive : ℕ → Bool) (regs : ℕ → ReaderSlot) :
    Reader w ω → Reader w ω → (ℕ → ReaderSlot) → Prop where
  | resolve (pid cursor lapped : ℕ) (start : StartPosition) :
      RegEffect cfg isAlive regs (opening pid start) (attachAt cfg pid cursor lapped) regs
  | look (pid cursor lapped i : ℕ) (lt : i < cfg.maxReaders)
      (free : (regs i).pid = 0 ∨ isAlive (regs i).pid = false) :
      RegEffect cfg isAlive regs (registering pid cursor lapped (.scan i))
        (registering pid cursor lapped (.claim i (regs i).pid)) regs
  | pass (pid cursor lapped : ℕ) (pc pc' : RegisterPc)
      (free : (registering pid cursor lapped pc : Reader w ω).holds = none)
      (search : pc' = .full ∨ ∃ i, pc' = .scan i) :
      RegEffect cfg isAlive regs (registering pid cursor lapped pc)
        (registering pid cursor lapped pc') regs
  | claim (pid cursor lapped i seen : ℕ) (eq : (regs i).pid = seen) :
      RegEffect cfg isAlive regs (registering pid cursor lapped (.claim i seen))
        (registering pid cursor lapped (.hide i))
        (Function.update regs i { regs i with pid := pid })
  | hide (pid cursor lapped i : ℕ) :
      RegEffect cfg isAlive regs (registering pid cursor lapped (.hide i))
        (registering pid cursor lapped (.place i))
        (Function.update regs i { regs i with active := 0 })
  | place (pid cursor lapped i : ℕ) :
      RegEffect cfg isAlive regs (registering pid cursor lapped (.place i))
        (registering pid cursor lapped (.activate i))
        (Function.update regs i { regs i with cursorSeq := cursor })
  | activate (pid cursor lapped i : ℕ) :
      RegEffect cfg isAlive regs (registering pid cursor lapped (.activate i))
        (registering pid cursor lapped (.registered i))
        (Function.update regs i { regs i with active := 1 })
  | attach (pid cursor lapped i : ℕ) :
      RegEffect cfg isAlive regs (registering pid cursor lapped (.registered i))
        (attached pid (some i) (RingConsumer.attach false false true cursor lapped)) regs
  | refuse (pid cursor lapped : ℕ) :
      RegEffect cfg isAlive regs (registering pid cursor lapped .full) gone regs
  | degrade (pid cursor lapped : ℕ) :
      RegEffect cfg isAlive regs (registering pid cursor lapped .full)
        (attached pid none (RingConsumer.attach false false false cursor lapped)) regs
  | consume (pid : ℕ) (slot : Option ℕ) (c c' : RingConsumer w ω) (stored : Option ℕ)
      (le : c.cursor ≤ c'.cursor) (store : stored = none ∨ stored = some c.cursor) :
      RegEffect cfg isAlive regs (attached pid slot c) (attached pid slot c')
        (storeCursor regs slot stored)
  | deactivate (pid i : ℕ) :
      RegEffect cfg isAlive regs (dropping pid i .deactivate) (dropping pid i .release)
        (Function.update regs i { regs i with active := 0 })
  | release (pid i : ℕ) (regs' : ℕ → ReaderSlot) (only : ∀ j, j ≠ i → regs' j = regs j) :
      RegEffect cfg isAlive regs (dropping pid i .release) (dropping pid i .released) regs'
  | released (pid i : ℕ) : RegEffect cfg isAlive regs (dropping pid i .released) gone regs
  | read (want : ℕ) (rd rd' : ReadPc w ω) :
      RegEffect cfg isAlive regs (slotReader want rd) (slotReader want rd') regs

theorem registerStep_regEffect {cfg : Config} {isAlive : ℕ → Bool} {regs regs' : ℕ → ReaderSlot}
    {pid cursor lapped : ℕ} {pc pc' : RegisterPc}
    (h : pc.step cfg.maxReaders isAlive pid cursor regs = some (pc', regs')) :
    RegEffect (w := w) (ω := ω) cfg isAlive regs (registering pid cursor lapped pc)
      (registering pid cursor lapped pc') regs' := by
  cases pc with
  | scan i =>
    simp only [RegisterPc.step] at h
    split_ifs at h with hi hfree <;> cases h
    · exact .look pid cursor lapped i hi hfree
    · exact .pass pid cursor lapped _ _ rfl (.inr ⟨i + 1, rfl⟩)
    · exact .pass pid cursor lapped _ _ rfl (.inl rfl)
  | claim i seen =>
    simp only [RegisterPc.step] at h
    split_ifs at h with heq <;> cases h
    · exact .claim pid cursor lapped i seen heq
    · exact .pass pid cursor lapped _ _ rfl (.inr ⟨i + 1, rfl⟩)
  | hide i => cases h; exact .hide pid cursor lapped i
  | place i => cases h; exact .place pid cursor lapped i
  | activate i => cases h; exact .activate pid cursor lapped i
  | registered i => cases h
  | full => cases h

theorem step_regEffect [Inhabited ω] {cfg : Config} {isAlive : ℕ → Bool} {v : View w ω}
    {m : Shared w ω} {x x' : Reader w ω} {a : ConsumerLabel w} {regs' : ℕ → ReaderSlot}
    (hv : v.Truthful) (hslots : v.slots = m.slots) (hws : v.writeSeq = m.writeSeq)
    (hx : System.ReaderInv cfg.cap v x) (h : x.step cfg isAlive m a = some (x', regs')) :
    RegEffect cfg isAlive m.regs x x' regs' := by
  unfold Reader.step at h
  split at h
  -- attaching: the start position, then a registry slot or none
  case h_1 pid start =>
    split_ifs at h
    cases h
    exact .resolve pid _ _ start
  case h_2 pid cursor lapped i =>
    cases h
    exact .attach pid cursor lapped i
  case h_3 pid cursor lapped =>
    split at h <;> cases h
    · exact .refuse pid cursor lapped
    · exact .degrade pid cursor lapped
  case h_4 pid cursor lapped pc _ _ =>
    obtain ⟨⟨pc', regs''⟩, hpc, he⟩ := Option.map_eq_some_iff.mp h
    cases he
    exact registerStep_regEffect hpc
  -- attached: a registered consumer stores its cursor, which never moves back
  case h_5 a pid slot c =>
    obtain ⟨⟨c', stored⟩, hc, he⟩ := Option.map_eq_some_iff.mp h
    cases he
    refine .consume pid slot c c' stored ?_ (RingConsumer.step_effect hc).stored_eq
    rw [← hslots, ← hws] at hc
    obtain ⟨D, L, J, hadv, -⟩ := RingConsumer.Inv.advance hv hx hc
    exact hadv.le
  -- dropping
  case h_6 pid i =>
    cases h
    exact .released pid i
  case h_7 pid i pc hne =>
    obtain ⟨⟨pc', regs''⟩, hpc, he⟩ := Option.map_eq_some_iff.mp h
    cases he
    cases pc with
    | deactivate => cases hpc; exact .deactivate pid i
    | release =>
      simp only [DropPc.step] at hpc
      split_ifs at hpc <;> cases hpc
      · exact .release pid i _ fun j hj => Function.update_of_ne hj _ _
      · exact .release pid i _ fun j _ => rfl
    | released => cases hpc
  -- a thread that reads one slot touches no registry
  case h_8 want rd i =>
    obtain ⟨rd', -, he⟩ := Option.map_eq_some_iff.mp h
    cases he
    exact .read want rd rd'
  case h_9 want rd =>
    obtain ⟨rd', -, he⟩ := Option.map_eq_some_iff.mp h
    cases he
    exact .read want rd rd'
  case h_10 => cases h

section

variable {cfg : Config} {isAlive : ℕ → Bool} {regs regs' : ℕ → ReaderSlot} {x x' : Reader w ω}

/-- A reader's step changes no slot but the one it owns and the one it claims. -/
theorem RegEffect.untouched (h : RegEffect cfg isAlive regs x x' regs') {i : ℕ}
    (hi : ¬ x.Touches regs i) : regs' i = regs i := by
  have hown : x.holds ≠ some i := fun he => hi (.inl he)
  cases h with
  | resolve | look | pass | attach | refuse | degrade | released | read => rfl
  | claim pid cursor lapped j seen eq =>
    apply Function.update_of_ne
    rintro rfl
    exact hi (.inr ⟨pid, cursor, lapped, seen, rfl, eq⟩)
  | hide pid cursor lapped j | place pid cursor lapped j | activate pid cursor lapped j
  | deactivate pid j =>
    apply Function.update_of_ne
    rintro rfl
    exact hown rfl
  | consume pid slot c c' stored =>
    cases slot with
    | none => rfl
    | some j =>
      cases stored with
      | none => rfl
      | some cursor =>
        apply Function.update_of_ne
        rintro rfl
        exact hown rfl
  | release pid j regs' only =>
    apply only
    rintro rfl
    exact hown rfl

/-- A reader owns after its step only what it owned or claimed. -/
theorem RegEffect.holds (h : RegEffect cfg isAlive regs x x' regs') {i : ℕ}
    (hi : x'.holds = some i) : x.Touches regs i := by
  cases h with
  | resolve pid cursor lapped start =>
    unfold attachAt at hi
    split_ifs at hi <;> cases hi
  | look => cases hi
  | pass _ _ _ _ pc' _ search =>
    rcases search with rfl | ⟨j, rfl⟩ <;> cases hi
  | claim pid cursor lapped j seen eq =>
    cases hi
    exact .inr ⟨pid, cursor, lapped, seen, rfl, eq⟩
  | hide | place | activate | attach | deactivate =>
    cases hi
    exact .inl rfl
  | consume => exact .inl hi
  | refuse | degrade | release | released | read => cases hi

/-- A reader's step keeps what holds of its slot. -/
theorem RegEffect.regInv {v : View w ω} (h : RegEffect cfg isAlive regs x x' regs')
    (hx : x.RegInv cfg.maxReaders regs) (hclaim : x.ClaimInv cfg.maxReaders isAlive)
    (hinv : System.ReaderInv cfg.cap v x) : x'.RegInv cfg.maxReaders regs' := by
  -- the owner's own stores leave the owner's process in the slot
  have hpid {j : ℕ} {slot : ReaderSlot} (hheld : x.holds = some j)
      (hslot : slot.pid = (regs j).pid) :
      j < cfg.maxReaders ∧ some (Function.update regs j slot j).pid = x.pid := by
    rw [Function.update_self, hslot]
    exact hx.1 j hheld
  cases h with
  | resolve pid cursor lapped start =>
    unfold attachAt
    split_ifs
    · exact ⟨by rintro i ⟨⟩, trivial⟩
    · exact ⟨by rintro i ⟨⟩, trivial⟩
  | look => exact ⟨by rintro i ⟨⟩, trivial⟩
  | pass _ _ _ _ pc' _ search =>
    rcases search with rfl | ⟨j, rfl⟩
    · exact ⟨by rintro i ⟨⟩, trivial⟩
    · exact ⟨by rintro i ⟨⟩, trivial⟩
  | claim pid cursor lapped j seen eq =>
    refine ⟨?_, trivial⟩
    rintro i ⟨⟩
    rw [Function.update_self]
    exact ⟨hclaim.1, rfl⟩
  | hide pid cursor lapped j =>
    refine ⟨?_, trivial⟩
    rintro i ⟨⟩
    exact hpid rfl rfl
  | place pid cursor lapped j =>
    refine ⟨?_, ?_⟩
    · rintro i ⟨⟩
      exact hpid rfl rfl
    · simp only [Function.update_self]
  | activate pid cursor lapped j =>
    refine ⟨?_, ?_⟩
    · rintro i ⟨⟩
      exact hpid rfl rfl
    · simp only [Function.update_self, true_and]
      exact hx.2
  | attach pid cursor lapped j =>
    obtain ⟨hown, hactive, hcursor⟩ := hx
    refine ⟨?_, hactive, ?_, hcursor.le⟩
    · rintro i ⟨⟩
      exact hown j rfl
    · rw [hcursor]
      exact hinv
  | refuse | degrade => exact ⟨by rintro i ⟨⟩, trivial⟩
  | consume pid slot c c' stored le store =>
    cases slot with
    | none => exact ⟨by rintro i ⟨⟩, trivial⟩
    | some j =>
      obtain ⟨hown, hactive, hpos, hle⟩ := hx
      have hc := hinv.one_le
      rcases store with rfl | rfl
      · exact ⟨hown, hactive, hpos, hle.trans le⟩
      · refine ⟨?_, ?_⟩
        · rintro i ⟨⟩
          exact hpid rfl rfl
        · simp only [storeCursor, updateCursor, Function.update_self]
          exact ⟨hactive, hc, le⟩
  | deactivate pid j =>
    refine ⟨?_, trivial⟩
    rintro i ⟨⟩
    exact hpid rfl rfl
  | release | released | read => exact ⟨by rintro i ⟨⟩, trivial⟩

theorem RegEffect.claimInv (h : RegEffect cfg isAlive regs x x' regs') :
    x'.ClaimInv cfg.maxReaders isAlive := by
  cases h with
  | resolve pid cursor lapped start =>
    unfold attachAt
    split_ifs <;> trivial
  | look pid cursor lapped i lt free => exact ⟨lt, free⟩
  | pass _ _ _ _ pc' _ search => rcases search with rfl | ⟨j, rfl⟩ <;> trivial
  | claim | hide | place | activate | attach | refuse | degrade | consume | deactivate | release
  | released | read => trivial

theorem RegEffect.pid_eq (h : RegEffect cfg isAlive regs x x' regs') {p : ℕ}
    (hp : x'.pid = some p) : x.pid = some p := by
  cases h with
  | resolve pid cursor lapped start =>
    unfold attachAt at hp
    split_ifs at hp <;> exact hp
  | look | pass | claim | hide | place | activate | attach | degrade | consume | deactivate
  | release => exact hp
  | refuse | released | read => cases hp

omit cfg regs regs' x' in
theorem alive_eq {p : ℕ} (h : x.pid = some p) : x.alive isAlive = isAlive p := by
  cases x <;> cases h <;> rfl

end

end Reader

namespace System

variable {ρ : Type}

/-- Live readers own their registry slots exclusively; what a `register` or a prune is about to
take belongs to nobody alive. -/
structure RegInv (cfg : Config) (s : System ρ w ω) : Prop where
  own : ∀ r, (s.readers r).alive s.alive = true →
    (s.readers r).RegInv cfg.maxReaders s.mem.regs
  apart : ∀ r r' i, r ≠ r' → (s.readers r).alive s.alive = true →
    (s.readers r').alive s.alive = true → (s.readers r).holds = some i →
    (s.readers r').holds ≠ some i
  pid_ne : ∀ r, (s.readers r).pid ≠ some 0
  claim : ∀ r, (s.readers r).ClaimInv cfg.maxReaders s.alive
  prune : ∀ k i pid n, s.producer.pc = .pruneReclaim k i pid n → s.alive pid = false

variable {cfg : Config} {s s' : System ρ w ω}

/-- The process in the slot of a live reader is that reader's, and alive. -/
theorem RegInv.pid_alive (h : s.RegInv cfg) {r : ρ} {i : ℕ}
    (halive : (s.readers r).alive s.alive = true) (hi : (s.readers r).holds = some i) :
    (s.mem.regs i).pid ≠ 0 ∧ s.alive (s.mem.regs i).pid = true := by
  have hpid := ((h.own r halive).1 i hi).2.symm
  refine ⟨fun h0 => h.pid_ne r (hpid.trans (congrArg some h0)), ?_⟩
  exact (Reader.alive_eq hpid).symm.trans halive

/-- Nobody else's step touches the slot of a live reader. -/
theorem RegInv.not_touches (h : s.RegInv cfg) {r r' : ρ} {i : ℕ} (hne : r ≠ r')
    (halive : (s.readers r).alive s.alive = true) (halive' : (s.readers r').alive s.alive = true)
    (hi : (s.readers r').holds = some i) : ¬ (s.readers r).Touches s.mem.regs i := by
  rintro (hheld | ⟨pid, cursor, lapped, seen, hx, hseen⟩)
  · exact h.apart r r' i hne halive halive' hheld hi
  · obtain ⟨hpid, hlive⟩ := h.pid_alive halive' hi
    have hclaim := h.claim r
    rw [hx] at hclaim
    rw [hseen] at hpid hlive
    rcases hclaim.2 with h0 | hdead
    · exact hpid h0
    · rw [hdead] at hlive
      cases hlive

/-! ## The producer's prunes -/

theorem producer_regs {n : ℕ} {isAlive : ℕ → Bool} {m m' : Shared w ω} {p p' : RingProducer w ω}
    {a : ProducerLabel w ω} {cap : Capacity} (h : p.step cap n isAlive m a = some (m', p')) :
    (m'.regs = m.regs ∨ ∃ k i pid c, p.pc = .pruneReclaim k i pid c ∧
      m'.regs = (reclaim m.regs i pid).2) ∧
    ∀ k i pid c, p'.pc = .pruneReclaim k i pid c → isAlive pid = false := by
  cases RingProducer.step_moves h with
  | call call hpc =>
    refine ⟨.inl rfl, fun k i pid c hpc' => ?_⟩
    cases call with
    | push => cases hpc'
    | tryPush item =>
      unfold RingProducer.start at hpc'
      split_ifs at hpc'
      cases hpc'
    | pushBatch items =>
      cases items with
      | nil =>
        simp only [RingProducer.start, hpc] at hpc'
        cases hpc'
      | cons => cases hpc'
  | enter todo =>
    refine ⟨.inl rfl, fun k i pid c hpc' => ?_⟩
    cases todo with
    | nil => cases hpc'
    | cons =>
      simp only [RingProducer.enter] at hpc'
      split_ifs at hpc'
  | gate k =>
    refine ⟨.inl rfl, fun k' i' pid c hpc' => ?_⟩
    cases k <;> simp only [RingProducer.gate] at hpc' <;> split_ifs at hpc' <;> cases hpc'
  | retry =>
    refine ⟨.inl rfl, fun k i pid c hpc' => ?_⟩
    unfold RingProducer.retry at hpc'
    split_ifs at hpc'
  | pruned k =>
    refine ⟨.inl rfl, fun k' i' pid c' hpc' => ?_⟩
    cases k with
    | retry => cases hpc'
    | tryPush =>
      simp only [RingProducer.pruned] at hpc'
      split_ifs at hpc'
  | condemn k i c hpc dead =>
    refine ⟨.inl rfl, ?_⟩
    rintro k' i' pid c' ⟨⟩
    exact dead
  | reclaim k i pid c hpc =>
    exact ⟨.inr ⟨k, i, pid, c, hpc, rfl⟩, by rintro k i pid c ⟨⟩⟩
  | active | inactive | owned | unowned | load => exact ⟨.inl rfl, by rintro k i pid c ⟨⟩⟩
  | blockPublish | spare | mark | word => exact ⟨.inl rfl, by rintro k i pid c ⟨⟩⟩
  | commit | publish => exact ⟨.inl rfl, by rintro k i pid c ⟨⟩⟩

theorem reclaim_of_ne {regs : ℕ → ReaderSlot} {i j pid : ℕ} (h : (regs j).pid ≠ pid) :
    (reclaim regs i pid).2 j = regs j := by
  unfold reclaim
  split_ifs with heq
  · apply Function.update_of_ne
    rintro rfl
    exact h heq
  · rfl

/-- A prune leaves the slots of live readers alone. -/
theorem RegInv.producer_regs_eq {a : ProducerLabel w ω} {mem : Shared w ω}
    {producer : RingProducer w ω} (h : s.RegInv cfg)
    (hp : s.producer.step cfg.cap cfg.maxReaders s.alive s.mem a = some (mem, producer)) {r : ρ}
    {i : ℕ} (halive : (s.readers r).alive s.alive = true) (hi : (s.readers r).holds = some i) :
    mem.regs i = s.mem.regs i := by
  rcases (producer_regs hp).1 with hregs | ⟨k, j, pid, c, hpc, hregs⟩
  · exact congrFun hregs i
  · rw [hregs]
    apply reclaim_of_ne
    intro heq
    have hlive := (h.pid_alive halive hi).2
    rw [heq, h.prune k j pid c hpc] at hlive
    cases hlive

theorem RegInv.producer {a : ProducerLabel w ω} {mem : Shared w ω} {producer : RingProducer w ω}
    (h : s.RegInv cfg)
    (hp : s.producer.step cfg.cap cfg.maxReaders s.alive s.mem a = some (mem, producer)) :
    RegInv cfg { s with mem := mem, producer := producer } := by
  refine ⟨fun r halive => (h.own r halive).of_eq fun i hi => ?_, h.apart, h.pid_ne, h.claim,
    (producer_regs hp).2⟩
  exact h.producer_regs_eq hp halive hi

/-! ## The readers' moves -/

/-- What a reader's move does to the registry, whatever the move is. -/
structure RegMove (cfg : Config) (s : System ρ w ω) (r : ρ) (x : Reader w ω)
    (regs : ℕ → ReaderSlot) : Prop where
  alive : (s.readers r).alive s.alive = true
  inv : x.RegInv cfg.maxReaders regs
  holds : ∀ i, x.holds = some i → (s.readers r).Touches s.mem.regs i
  untouched : ∀ i, ¬ (s.readers r).Touches s.mem.regs i → regs i = s.mem.regs i
  claim : x.ClaimInv cfg.maxReaders s.alive
  pid_ne : x.pid ≠ some 0

theorem drop_regMove {r : ρ} {x : Reader w ω} (h : s.RegInv cfg)
    (halive : (s.readers r).alive s.alive = true) (hdrop : (s.readers r).drop = some x) :
    RegMove cfg s r x s.mem.regs := by
  have hown := h.own r halive
  have hpid := h.pid_ne r
  cases hx : s.readers r with
  | attached pid slot c =>
    rw [hx] at hdrop hown hpid
    cases slot with
    | none =>
      simp only [Reader.drop] at hdrop
      split at hdrop <;> cases hdrop
      refine ⟨halive, ⟨by rintro i ⟨⟩, trivial⟩, by rintro i ⟨⟩, fun _ _ => rfl, trivial, ?_⟩
      exact Option.some_ne_none 0 |>.symm
    | some j =>
      simp only [Reader.drop] at hdrop
      split at hdrop <;> cases hdrop
      refine ⟨halive, ⟨hown.1, trivial⟩, fun i hi => ?_, fun _ _ => rfl, trivial, hpid⟩
      rw [hx]
      exact .inl hi
  | absent | opening | registering | dropping | gone | slotReader =>
    rw [hx] at hdrop
    cases hdrop

theorem ReaderMove.regMove [Inhabited ω] {l : Label ρ w ω} {r : ρ} {x : Reader w ω}
    {regs : ℕ → ReaderSlot} (hinv : s.Inv cfg) (h : s.RegInv cfg)
    (hm : ReaderMove cfg s l r x regs) : RegMove cfg s r x regs := by
  cases hm with
  | attach pid start absent pid_ne alive next same =>
    rw [next, same]
    refine ⟨by rw [absent]; rfl, ⟨by rintro i ⟨⟩, trivial⟩, by rintro i ⟨⟩, fun _ _ => rfl, trivial, ?_⟩
    exact fun he => pid_ne (Option.some.inj he)
  | readSlot want absent next same =>
    rw [next, same]
    refine ⟨by rw [absent]; rfl, ⟨by rintro i ⟨⟩, trivial⟩, by rintro i ⟨⟩, fun _ _ => rfl, trivial, ?_⟩
    exact fun he => by cases he
  | step a label alive next =>
    have he := Reader.step_regEffect (view_truthful hinv.ring) rfl rfl (hinv.readers r) next
    exact ⟨alive, he.regInv (h.own r alive) (h.claim r) (hinv.readers r), fun i hi => he.holds hi,
      fun i hi => he.untouched hi, he.claimInv, fun hp => h.pid_ne r (he.pid_eq hp)⟩
  | drop alive next same =>
    rw [same]
    exact drop_regMove h alive next

variable [DecidableEq ρ]

theorem RegInv.reader {r : ρ} {x : Reader w ω} {regs : ℕ → ReaderSlot} (h : s.RegInv cfg)
    (hm : RegMove cfg s r x regs) :
    RegInv cfg { s with
      mem := { s.mem with regs := regs }, readers := Function.update s.readers r x } := by
  refine ⟨fun r' halive => ?_, fun r₁ r₂ i hne halive₁ halive₂ h₁ h₂ => ?_, fun r' => ?_,
    fun r' => ?_, h.prune⟩
  · rcases eq_or_ne r' r with rfl | hne
    · simp only [Function.update_self]
      exact hm.inv
    · simp only [Function.update_of_ne hne] at halive ⊢
      refine (h.own r' halive).of_eq fun i hi => hm.untouched i ?_
      exact h.not_touches hne.symm hm.alive halive hi
  · rcases eq_or_ne r₁ r with rfl | hne₁
    · simp only [Function.update_self, Function.update_of_ne hne.symm] at h₁ h₂ halive₂
      exact h.not_touches hne hm.alive halive₂ h₂ (hm.holds i h₁)
    · rcases eq_or_ne r₂ r with rfl | hne₂
      · simp only [Function.update_self, Function.update_of_ne hne] at h₁ h₂ halive₁
        exact h.not_touches hne.symm hm.alive halive₁ h₁ (hm.holds i h₂)
      · simp only [Function.update_of_ne hne₁, Function.update_of_ne hne₂] at h₁ h₂ halive₁ halive₂
        exact h.apart r₁ r₂ i hne halive₁ halive₂ h₁ h₂
  · rcases eq_or_ne r' r with rfl | hne
    · simp only [Function.update_self]
      exact hm.pid_ne
    · simp only [Function.update_of_ne hne]
      exact h.pid_ne r'
  · rcases eq_or_ne r' r with rfl | hne
    · simp only [Function.update_self]
      exact hm.claim
    · simp only [Function.update_of_ne hne]
      exact h.claim r'

omit [DecidableEq ρ] in
/-- A death frees slots but takes none. -/
theorem RegInv.die (h : s.RegInv cfg) (pid : ℕ) :
    RegInv cfg { s with alive := Function.update s.alive pid false } := by
  exact ⟨fun r hr => h.own r (Reader.alive_of_die hr),
    fun r r' i hne h₁ h₂ => h.apart r r' i hne (Reader.alive_of_die h₁) (Reader.alive_of_die h₂),
    h.pid_ne, fun r => (h.claim r).mono fun _ => dead_after_die,
    fun k i q n hpc => dead_after_die (h.prune k i q n hpc)⟩

theorem RegInv.step [Inhabited ω] {l : Label ρ w ω} (hinv : s.Inv cfg) (h : s.RegInv cfg)
    (hstep : s.step cfg l = some s') : s'.RegInv cfg := by
  cases step_move hstep with
  | producer a mem producer hp next =>
    rw [next]
    exact h.producer hp
  | reader r x regs hm next =>
    rw [next]
    exact h.reader (hm.regMove hinv h)
  | die pid next =>
    rw [next]
    exact h.die pid

omit [DecidableEq ρ] in
theorem RegInv.create [Inhabited ω] (ρ : Type) (w : ℕ) (cfg : Config) :
    (create (ω := ω) ρ w cfg).RegInv cfg where
  own _ _ := ⟨by rintro i ⟨⟩, trivial⟩
  apart := by rintro r r' i hne h₁ h₂ ⟨⟩
  pid_ne _ := fun h => by cases h
  claim _ := trivial
  prune := by rintro k i pid n ⟨⟩

end System

end Ringfire
