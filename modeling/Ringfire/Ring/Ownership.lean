import Ringfire.Foundation.Transition
import Ringfire.Ring.Producer

/-!
# The reader registry as a system

Any number of registrations, of any number of processes and several to a process, and any number of
threads that run `prune_dead_readers` or `min_cursor`, one memory access at a time in any order.
`is_process_alive` is called apart from the load of the `pid` it judges. A process may die at any
moment, and a process id is not used again.

## Main definitions

* `Handle`: a registration, from the call of `register` until it was dropped
* `Scanner`: a thread inside `prune_dead_readers` or `min_cursor`
* `Registry.step`: one memory access of one thread
* `Registry.Inv`: live registrations own their slots
* `Registry.store`: `update_cursor` with any cursor, as `seek` calls it

## Main results

* `Registry.Inv.step`: every step keeps the invariant
* `registry_exclusive`: the slots of live registrations are their own and are what they stored, and
  `min_cursor` misses none of them
-/

namespace Ringfire

/-- A registration: `registering` and `judging` inside `register`, `live` once it has returned, with
the cursor stored last, and `dropping` from the beginning of its drop on. -/
inductive Handle where
  | absent
  | registering (pid initialCursor : ℕ) (pc : RegisterPc)
  | judging (pid initialCursor i seen : ℕ)
  | live (pid slot cursor : ℕ)
  | dropping (pid slot : ℕ) (pc : DropPc)
  deriving DecidableEq

/-- What a registration does next. -/
inductive HandleLabel where
  /-- A process calls `register`. -/
  | register (pid initialCursor : ℕ)
  | tick
  | updateCursor (seq : ℕ)
  | drop
  deriving DecidableEq

namespace Handle

/-- The process of a registration. -/
def pid : Handle → Option ℕ
  | absent => none
  | registering pid _ _ | judging pid _ _ _ | live pid _ _ | dropping pid _ _ => some pid

/-- The slot a registration owns: from its compare-and-swap until it releases the slot. -/
def holds : Handle → Option ℕ
  | registering _ _ (.hide i) | registering _ _ (.place i) => some i
  | registering _ _ (.activate i) | registering _ _ (.registered i) => some i
  | live _ i _ => some i
  | dropping _ i .deactivate | dropping _ i .release => some i
  | _ => none

/-- One memory access of a registration, over a registry of `count` slots. -/
def step (count : ℕ) (alive : ℕ → Bool) (regs : ℕ → ReaderSlot) :
    Handle → HandleLabel → Option (Handle × (ℕ → ReaderSlot))
  | absent, .register pid initialCursor =>
    if alive pid then some (registering pid initialCursor (.scan 0), regs) else none
  | registering pid initialCursor (.scan i), .tick =>
    if i < count then some (judging pid initialCursor i (regs i).pid, regs)
    else some (registering pid initialCursor .full, regs)
  -- between the load of `pid` and this the process seen may die
  | judging pid initialCursor i seen, .tick =>
    if seen = 0 ∨ alive seen = false then some (registering pid initialCursor (.claim i seen), regs)
    else some (registering pid initialCursor (.scan (i + 1)), regs)
  | registering pid initialCursor (.registered i), .tick => some (live pid i initialCursor, regs)
  | registering pid initialCursor pc, .tick =>
    (pc.step count alive pid initialCursor regs).map fun (pc', regs') =>
      (registering pid initialCursor pc', regs')
  -- cursors only move forward
  | live pid i cursor, .updateCursor seq =>
    if cursor ≤ seq then some (live pid i seq, updateCursor regs i seq) else none
  | live pid i _, .drop => some (dropping pid i .deactivate, regs)
  | dropping pid i pc, .tick =>
    (pc.step pid i regs).map fun (pc', regs') => (dropping pid i pc', regs')
  | _, _ => none

end Handle

/-- A thread inside `prune_dead_readers` or `min_cursor`. -/
inductive Scanner where
  | idle
  | prune (i : ℕ)
  | judge (i seen : ℕ)
  | reclaim (i seen : ℕ)
  | loadActive (i : ℕ) (min : Option ℕ)
  | loadPid (i : ℕ) (min : Option ℕ)
  | loadCursor (i : ℕ) (min : Option ℕ)
  /-- `min_cursor` has returned. -/
  | returned (min : Option ℕ)
  deriving DecidableEq

/-- One memory access of a scanning thread. -/
def Scanner.step (count : ℕ) (alive : ℕ → Bool) (regs : ℕ → ReaderSlot) :
    Scanner → Option (Scanner × (ℕ → ReaderSlot))
  -- `prune_dead_readers`
  | .prune i => if i < count then some (.judge i (regs i).pid, regs) else some (.idle, regs)
  | .judge i seen =>
    if seen ≠ 0 ∧ alive seen = false then some (.reclaim i seen, regs)
    else some (.prune (i + 1), regs)
  | .reclaim i seen => some (.prune (i + 1), (Ringfire.reclaim regs i seen).2)
  -- `min_cursor`
  | .loadActive i min =>
    if i < count then
      if (regs i).active = 1 then some (.loadPid i min, regs) else some (.loadActive (i + 1) min, regs)
    else some (.returned min, regs)
  | .loadPid i min =>
    if (regs i).pid ≠ 0 then some (.loadCursor i min, regs)
    else some (.loadActive (i + 1) min, regs)
  | .loadCursor i min =>
    some (.loadActive (i + 1) (some (RingProducer.minSeq min (regs i).cursorSeq)), regs)
  | .idle => none
  | .returned _ => none

/-- The registry, its registrations and the threads that scan it. -/
structure Registry (ρ κ : Type) where
  regs : ℕ → ReaderSlot
  alive : ℕ → Bool
  handles : ρ → Handle
  scanners : κ → Scanner

/-- Who moves. -/
inductive RegistryLabel (ρ κ : Type) where
  | handle (r : ρ) (a : HandleLabel)
  | scan (k : κ)
  | beginPrune (k : κ)
  | beginMin (k : κ)
  | die (pid : ℕ)
  deriving DecidableEq

/-- A thread that scans nothing can begin to. -/
def Scanner.ready : Scanner → Bool
  | .idle | .returned _ => true
  | _ => false

namespace Registry

variable {ρ κ : Type}

/-- A registry as `ReaderRegistry::init` leaves it, with any processes alive but the process `0`,
which `is_process_alive` never takes for alive. -/
def init (ρ κ : Type) (alive : ℕ → Bool) : Registry ρ κ :=
  ⟨fun _ => .empty, fun pid => pid ≠ 0 && alive pid, fun _ => .absent, fun _ => .idle⟩

/-- The process of a registration has not died. -/
def acts (s : Registry ρ κ) (r : ρ) : Bool := (s.handles r).pid.elim true s.alive

/-- One memory access of one thread, or the death of a process. -/
def step [DecidableEq ρ] [DecidableEq κ] (count : ℕ) (s : Registry ρ κ) :
    RegistryLabel ρ κ → Option (Registry ρ κ)
  | .handle r a =>
    if s.acts r then
      ((s.handles r).step count s.alive s.regs a).map fun (h, regs) =>
        { s with regs := regs, handles := Function.update s.handles r h }
    else none
  | .scan k =>
    ((s.scanners k).step count s.alive s.regs).map fun (x, regs) =>
      { s with regs := regs, scanners := Function.update s.scanners k x }
  | .beginPrune k =>
    if (s.scanners k).ready then
      some { s with scanners := Function.update s.scanners k (.prune 0) }
    else none
  | .beginMin k =>
    if (s.scanners k).ready then
      some { s with scanners := Function.update s.scanners k (.loadActive 0 none) }
    else none
  | .die pid => some { s with alive := Function.update s.alive pid false }

end Registry

/-! ## What a registration does to the registry -/

namespace Handle

variable {count : ℕ} {alive alive' : ℕ → Bool} {regs regs' : ℕ → ReaderSlot} {h h' : Handle}

/-- The registration's next memory access may change slot `i`. -/
def Touches (regs : ℕ → ReaderSlot) (h : Handle) (i : ℕ) : Prop :=
  h.holds = some i ∨ ∃ pid cursor seen,
    h = registering pid cursor (.claim i seen) ∧ (regs i).pid = seen

/-- What holds of a registration whose process is alive. -/
def Inv (count : ℕ) (alive : ℕ → Bool) (regs : ℕ → ReaderSlot) (h : Handle) : Prop :=
  (∀ i, h.holds = some i → i < count ∧ some (regs i).pid = h.pid) ∧
  match h with
  | judging _ _ i _ => i < count
  -- the process seen in a slot about to be claimed is dead, or there was none
  | registering _ _ (.claim i seen) => i < count ∧ (seen = 0 ∨ alive seen = false)
  | registering _ cursor (.activate i) => (regs i).cursorSeq = cursor
  | registering _ cursor (.registered i) => (regs i).active = 1 ∧ (regs i).cursorSeq = cursor
  | live _ i cursor => (regs i).active = 1 ∧ (regs i).cursorSeq = cursor
  | _ => True

/-- What a memory access of a registration does. -/
inductive Effect (count : ℕ) (alive : ℕ → Bool) (regs : ℕ → ReaderSlot) :
    Handle → Handle → (ℕ → ReaderSlot) → Prop where
  | call (pid cursor : ℕ) (lives : alive pid = true) :
      Effect count alive regs absent (registering pid cursor (.scan 0)) regs
  | load (pid cursor i : ℕ) (lt : i < count) :
      Effect count alive regs (registering pid cursor (.scan i))
        (judging pid cursor i (regs i).pid) regs
  | judge (pid cursor i seen : ℕ) (free : seen = 0 ∨ alive seen = false) :
      Effect count alive regs (judging pid cursor i seen)
        (registering pid cursor (.claim i seen)) regs
  | pass (pid cursor : ℕ) (h : Handle) (pc : RegisterPc)
      (searching : (∃ pc, h = registering pid cursor pc) ∨ ∃ i seen, h = judging pid cursor i seen)
      (free : h.holds = none) (search : pc = .full ∨ ∃ i, pc = .scan i) :
      Effect count alive regs h (registering pid cursor pc) regs
  | claim (pid cursor i seen : ℕ) (eq : (regs i).pid = seen) :
      Effect count alive regs (registering pid cursor (.claim i seen))
        (registering pid cursor (.hide i)) (Function.update regs i { regs i with pid := pid })
  | hide (pid cursor i : ℕ) :
      Effect count alive regs (registering pid cursor (.hide i))
        (registering pid cursor (.place i)) (Function.update regs i { regs i with active := 0 })
  | place (pid cursor i : ℕ) :
      Effect count alive regs (registering pid cursor (.place i))
        (registering pid cursor (.activate i))
        (Function.update regs i { regs i with cursorSeq := cursor })
  | activate (pid cursor i : ℕ) :
      Effect count alive regs (registering pid cursor (.activate i))
        (registering pid cursor (.registered i))
        (Function.update regs i { regs i with active := 1 })
  | «return» (pid cursor i : ℕ) :
      Effect count alive regs (registering pid cursor (.registered i)) (live pid i cursor) regs
  | update (pid i cursor seq : ℕ) (le : cursor ≤ seq) :
      Effect count alive regs (live pid i cursor) (live pid i seq)
        (Function.update regs i { regs i with cursorSeq := seq })
  | drop (pid i cursor : ℕ) :
      Effect count alive regs (live pid i cursor) (dropping pid i .deactivate) regs
  | deactivate (pid i : ℕ) :
      Effect count alive regs (dropping pid i .deactivate) (dropping pid i .release)
        (Function.update regs i { regs i with active := 0 })
  | release (pid i : ℕ) (regs' : ℕ → ReaderSlot) (only : ∀ j, j ≠ i → regs' j = regs j) :
      Effect count alive regs (dropping pid i .release) (dropping pid i .released) regs'

theorem step_effect {a : HandleLabel} (hs : h.step count alive regs a = some (h', regs')) :
    Effect count alive regs h h' regs' := by
  unfold Handle.step at hs
  split at hs
  · next pid cursor =>
    split_ifs at hs with hlives
    cases hs
    exact .call pid cursor hlives
  · next pid cursor i =>
    split_ifs at hs with hlt
    · cases hs
      exact .load pid cursor i hlt
    · cases hs
      exact .pass pid cursor _ _ (.inl ⟨_, rfl⟩) rfl (.inl rfl)
  · next pid cursor i seen =>
    split_ifs at hs with hfree
    · cases hs
      exact .judge pid cursor i seen hfree
    · cases hs
      exact .pass pid cursor _ _ (.inr ⟨i, seen, rfl⟩) rfl (.inr ⟨i + 1, rfl⟩)
  · next pid cursor i =>
    cases hs
    exact .return pid cursor i
  · next pid cursor pc hscan hregistered =>
    obtain ⟨⟨pc', regs''⟩, hpc, he⟩ := Option.map_eq_some_iff.mp hs
    cases he
    cases pc with
    | scan i => exact absurd rfl (hscan i)
    | registered i => exact absurd rfl (hregistered i)
    | claim i seen =>
      simp only [RegisterPc.step] at hpc
      split_ifs at hpc with heq
      · cases hpc
        exact .claim pid cursor i seen heq
      · cases hpc
        exact .pass pid cursor _ _ (.inl ⟨_, rfl⟩) rfl (.inr ⟨i + 1, rfl⟩)
    | hide i =>
      cases hpc
      exact .hide pid cursor i
    | place i =>
      cases hpc
      exact .place pid cursor i
    | activate i =>
      cases hpc
      exact .activate pid cursor i
    | full => cases hpc
  · next pid i cursor seq =>
    split_ifs at hs with hle
    cases hs
    exact .update pid i cursor seq hle
  · next pid i cursor =>
    cases hs
    exact .drop pid i cursor
  · next pid i pc =>
    obtain ⟨⟨pc', regs''⟩, hpc, he⟩ := Option.map_eq_some_iff.mp hs
    cases he
    cases pc with
    | deactivate =>
      cases hpc
      exact .deactivate pid i
    | release =>
      simp only [DropPc.step] at hpc
      split_ifs at hpc
      · cases hpc
        exact .release pid i _ fun j hj => Function.update_of_ne hj _ _
      · cases hpc
        exact .release pid i _ fun j _ => rfl
    | released => cases hpc
  · cases hs

/-- A registration changes no slot but the one it owns and the one it claims. -/
theorem Effect.untouched (he : Effect count alive regs h h' regs') {i : ℕ}
    (hi : ¬ h.Touches regs i) : regs' i = regs i := by
  have hown : h.holds ≠ some i := fun heq => hi (.inl heq)
  cases he with
  | call | load | judge | pass | «return» | drop => rfl
  | claim pid cursor j seen eq =>
    apply Function.update_of_ne
    rintro rfl
    exact hi (.inr ⟨pid, cursor, seen, rfl, eq⟩)
  | hide pid cursor j | place pid cursor j | activate pid cursor j | update pid j
  | deactivate pid j =>
    apply Function.update_of_ne
    rintro rfl
    exact hown rfl
  | release pid j regs' only =>
    apply only
    rintro rfl
    exact hown rfl

/-- A registration owns only what it owned or claimed. -/
theorem Effect.holds (he : Effect count alive regs h h' regs') {i : ℕ} (hi : h'.holds = some i) :
    h.Touches regs i := by
  cases he with
  | call | load | judge | release => cases hi
  | pass _ _ _ pc _ _ search => rcases search with rfl | ⟨j, rfl⟩ <;> cases hi
  | claim pid cursor j seen eq =>
    cases hi
    exact .inr ⟨pid, cursor, seen, rfl, eq⟩
  | hide | place | activate | «return» | update | drop | deactivate =>
    cases hi
    exact .inl rfl

/-- What holds of a registration depends on its own slot only, and a dead process stays dead. -/
theorem Inv.of_eq (hi : h.Inv count alive regs)
    (heq : ∀ i, h.holds = some i → regs' i = regs i)
    (hdead : ∀ q, alive q = false → alive' q = false) : h.Inv count alive' regs' := by
  refine ⟨fun i hh => ?_, ?_⟩
  · rw [heq i hh]
    exact hi.1 i hh
  · obtain ⟨-, hi⟩ := hi
    split at hi
    · exact hi
    · exact hi.imp_right (Or.imp_right (hdead _))
    · rw [heq _ rfl]
      exact hi
    · rw [heq _ rfl]
      exact hi
    · rw [heq _ rfl]
      exact hi
    · trivial

/-- A registration's memory access keeps what holds of it. -/
theorem Effect.inv (he : Effect count alive regs h h' regs') (hi : h.Inv count alive regs) :
    h'.Inv count alive regs' := by
  -- the owner's own stores leave the owner's process in the slot
  have hpid {j : ℕ} {slot : ReaderSlot} (hheld : h.holds = some j)
      (hslot : slot.pid = (regs j).pid) :
      j < count ∧ some (Function.update regs j slot j).pid = h.pid := by
    rw [Function.update_self, hslot]
    exact hi.1 j hheld
  cases he with
  | call => exact ⟨by rintro i ⟨⟩, trivial⟩
  | load pid cursor i lt => exact ⟨by rintro i ⟨⟩, lt⟩
  | judge pid cursor i seen free => exact ⟨by rintro i ⟨⟩, hi.2, free⟩
  | pass _ _ _ pc _ _ search =>
    rcases search with rfl | ⟨j, rfl⟩
    · exact ⟨by rintro i ⟨⟩, trivial⟩
    · exact ⟨by rintro i ⟨⟩, trivial⟩
  | claim pid cursor j seen eq =>
    refine ⟨?_, trivial⟩
    rintro i ⟨⟩
    rw [Function.update_self]
    exact ⟨hi.2.1, rfl⟩
  | hide pid cursor j =>
    refine ⟨?_, trivial⟩
    rintro i ⟨⟩
    exact hpid rfl rfl
  | place pid cursor j =>
    refine ⟨?_, ?_⟩
    · rintro i ⟨⟩
      exact hpid rfl rfl
    · simp only [Function.update_self]
  | activate pid cursor j =>
    refine ⟨?_, ?_⟩
    · rintro i ⟨⟩
      exact hpid rfl rfl
    · simp only [Function.update_self, true_and]
      exact hi.2
  | «return» pid cursor j =>
    refine ⟨?_, hi.2⟩
    rintro i ⟨⟩
    exact hi.1 j rfl
  | update pid j cursor seq le =>
    refine ⟨?_, ?_⟩
    · rintro i ⟨⟩
      exact hpid rfl rfl
    · simp only [Function.update_self, and_true]
      exact hi.2.1
  | drop pid j cursor =>
    refine ⟨?_, trivial⟩
    rintro i ⟨⟩
    exact hi.1 j rfl
  | deactivate pid j =>
    refine ⟨?_, trivial⟩
    rintro i ⟨⟩
    exact hpid rfl rfl
  | release => exact ⟨by rintro i ⟨⟩, trivial⟩

end Handle

namespace Scanner

variable {count : ℕ} {alive : ℕ → Bool} {regs regs' : ℕ → ReaderSlot} {x x' : Scanner}

/-- A scanning thread changes a slot only to reclaim it. -/
theorem step_regs (hs : x.step count alive regs = some (x', regs')) :
    regs' = regs ∨ ∃ i seen, x = .reclaim i seen ∧ regs' = (Ringfire.reclaim regs i seen).2 := by
  cases x with
  | reclaim i seen =>
    cases hs
    exact .inr ⟨i, seen, rfl, rfl⟩
  | idle | returned => cases hs
  | prune | judge | loadActive | loadPid | loadCursor =>
    left
    rw [Scanner.step] at hs
    (repeat split_ifs at hs) <;> cases hs <;> rfl

/-- A process whose slot is about to be reclaimed was just found dead. -/
theorem step_reclaim {i seen : ℕ} (hs : x.step count alive regs = some (.reclaim i seen, regs')) :
    alive seen = false := by
  cases x with
  | judge j seen' =>
    rw [Scanner.step] at hs
    split_ifs at hs with hdead
    · cases hs
      exact hdead.2
    · cases hs
  | idle | returned | reclaim | loadCursor => cases hs
  | prune | loadActive | loadPid =>
    rw [Scanner.step] at hs
    (repeat split_ifs at hs) <;> cases hs

end Scanner

/-! ## Ownership -/

namespace Registry

variable {ρ κ : Type} {count : ℕ} {s s' : Registry ρ κ}

/-- Live registrations own their slots, and each its own. -/
structure Inv (count : ℕ) (s : Registry ρ κ) : Prop where
  zero : s.alive 0 = false
  owns : ∀ r, s.acts r = true → (s.handles r).Inv count s.alive s.regs
  apart : ∀ r r' i, s.acts r = true → s.acts r' = true → (s.handles r).holds = some i →
    (s.handles r').holds = some i → r = r'
  /-- A slot is reclaimed from a process that is dead. -/
  reclaims : ∀ k i seen, s.scanners k = .reclaim i seen → s.alive seen = false

/-- The owner of a slot is a process that is alive. -/
theorem Inv.owner_alive (h : s.Inv count) {r : ρ} (hr : s.acts r = true) {i : ℕ}
    (hi : (s.handles r).holds = some i) : s.alive (s.regs i).pid = true := by
  have hpid := ((h.owns r hr).1 i hi).2
  unfold acts at hr
  rwa [← hpid] at hr

theorem Inv.owner_ne (h : s.Inv count) {r : ρ} (hr : s.acts r = true) {i seen : ℕ}
    (hi : (s.handles r).holds = some i) (hseen : seen = 0 ∨ s.alive seen = false) :
    (s.regs i).pid ≠ seen := by
  intro heq
  have halive := h.owner_alive hr hi
  rw [heq] at halive
  rcases hseen with rfl | hdead
  · rw [h.zero] at halive
    cases halive
  · rw [hdead] at halive
    cases halive

/-- A slot that a live registration owns is touched by no other. -/
theorem Inv.not_touches (h : s.Inv count) {r r' : ρ} (hne : r' ≠ r) (hr : s.acts r = true)
    (hr' : s.acts r' = true) {i : ℕ} (hi : (s.handles r').holds = some i) :
    ¬ (s.handles r).Touches s.regs i := by
  rintro (hown | ⟨pid, cursor, seen, hclaim, heq⟩)
  · exact hne (h.apart r' r i hr' hr hi hown)
  · have hseen := (h.owns r hr).2
    rw [hclaim] at hseen
    exact h.owner_ne hr' hi hseen.2 heq

theorem acts_update [DecidableEq ρ] {r r' : ρ} (hne : r' ≠ r) (x : Handle) (regs : ℕ → ReaderSlot) :
    acts { s with regs := regs, handles := Function.update s.handles r x } r' = s.acts r' := by
  simp only [acts, Function.update_of_ne hne]

/-- A registration that moved, when it touched only what it may and owns only what it touched. -/
theorem Inv.setHandle [DecidableEq ρ] (h : s.Inv count) {r : ρ} {x : Handle}
    {regs : ℕ → ReaderSlot} (hr : s.acts r = true)
    (huntouched : ∀ i, ¬ (s.handles r).Touches s.regs i → regs i = s.regs i)
    (hholds : ∀ i, x.holds = some i → (s.handles r).Touches s.regs i)
    (hinv : x.Inv count s.alive regs) :
    Inv count { s with regs := regs, handles := Function.update s.handles r x } := by
  -- the slots of the other registrations stay as they are
  have hother {r' : ρ} (hne : r' ≠ r) (hr' : s.acts r' = true) {i : ℕ}
      (hi : (s.handles r').holds = some i) : regs i = s.regs i :=
    huntouched i (h.not_touches hne hr hr' hi)
  refine ⟨h.zero, fun r' hr' => ?_, fun r₁ r₂ i h₁ h₂ hi₁ hi₂ => ?_, h.reclaims⟩
  · rcases eq_or_ne r' r with rfl | hne
    · simp only [Function.update_self]
      exact hinv
    · rw [acts_update hne] at hr'
      simp only [Function.update_of_ne hne]
      exact (h.owns r' hr').of_eq (fun i hi => hother hne hr' hi) fun _ hq => hq
  · rcases eq_or_ne r₁ r with rfl | hne₁
    · rcases eq_or_ne r₂ r₁ with rfl | hne₂
      · rfl
      · -- what the moved registration owns now, it touched
        rw [acts_update hne₂] at h₂
        simp only [Function.update_self] at hi₁
        simp only [Function.update_of_ne hne₂] at hi₂
        exact absurd (hholds i hi₁) (h.not_touches hne₂ hr h₂ hi₂)
    · rw [acts_update hne₁] at h₁
      simp only [Function.update_of_ne hne₁] at hi₁
      rcases eq_or_ne r₂ r with rfl | hne₂
      · simp only [Function.update_self] at hi₂
        exact absurd (hholds i hi₂) (h.not_touches hne₁ hr h₁ hi₁)
      · rw [acts_update hne₂] at h₂
        simp only [Function.update_of_ne hne₂] at hi₂
        exact h.apart r₁ r₂ i h₁ h₂ hi₁ hi₂

theorem Inv.handle [DecidableEq ρ] (h : s.Inv count) {r : ρ} {x : Handle} {regs : ℕ → ReaderSlot}
    (hr : s.acts r = true) (he : Handle.Effect count s.alive s.regs (s.handles r) x regs) :
    Inv count { s with regs := regs, handles := Function.update s.handles r x } :=
  h.setHandle hr (fun _ hi => he.untouched hi) (fun _ hi => he.holds hi) (he.inv (h.owns r hr))

/-- Scanning changes a slot only to take it from a dead process. -/
theorem Inv.scanned (h : s.Inv count) {k : κ} {x : Scanner} {regs : ℕ → ReaderSlot}
    (hs : (s.scanners k).step count s.alive s.regs = some (x, regs)) {r : ρ}
    (hr : s.acts r = true) {i : ℕ} (hi : (s.handles r).holds = some i) : regs i = s.regs i := by
  rcases Scanner.step_regs hs with rfl | ⟨j, seen, hx, rfl⟩
  · rfl
  · -- the compare-and-swap of `reclaim` fails on a slot whose owner is alive
    have hdead := h.reclaims k j seen hx
    unfold Ringfire.reclaim
    split_ifs with heq
    · apply Function.update_of_ne
      rintro rfl
      exact h.owner_ne hr hi (.inr hdead) heq
    · rfl

variable [DecidableEq ρ] [DecidableEq κ]

omit [DecidableEq ρ] in
/-- A registry one of whose scanning threads moved. -/
theorem Inv.setScanner (h : s.Inv count) {k : κ} {x : Scanner} {regs : ℕ → ReaderSlot}
    (hregs : ∀ r i, s.acts r = true → (s.handles r).holds = some i → regs i = s.regs i)
    (hx : ∀ i seen, x = .reclaim i seen → s.alive seen = false) :
    Inv count { s with regs := regs, scanners := Function.update s.scanners k x } := by
  refine ⟨h.zero, fun r hr => ?_, h.apart, fun k' i seen hk' => ?_⟩
  · exact (h.owns r hr).of_eq (fun i hi => hregs r i hr hi) fun _ hq => hq
  · rcases eq_or_ne k' k with rfl | hne
    · simp only [Function.update_self] at hk'
      exact hx i seen hk'
    · simp only [Function.update_of_ne hne] at hk'
      exact h.reclaims k' i seen hk'

omit [DecidableEq ρ] [DecidableEq κ] in
/-- The death of a process makes no registration of another process act otherwise. -/
theorem acts_of_die {pid : ℕ} {r : ρ}
    (hr : acts { s with alive := Function.update s.alive pid false } r = true) :
    s.acts r = true := by
  unfold acts at hr ⊢
  cases hp : (s.handles r).pid with
  | none => rfl
  | some q =>
    simp only [hp, Option.elim_some] at hr ⊢
    exact alive_before_die hr

omit [DecidableEq ρ] [DecidableEq κ] in
theorem Inv.die (h : s.Inv count) (pid : ℕ) :
    Inv count { s with alive := Function.update s.alive pid false } := by
  refine ⟨dead_after_die h.zero, fun r hr => ?_, fun r r' i hr hr' => ?_, fun k i seen hk => ?_⟩
  · exact (h.owns r (acts_of_die hr)).of_eq (fun _ _ => rfl) fun _ hq => dead_after_die hq
  · exact h.apart r r' i (acts_of_die hr) (acts_of_die hr')
  · exact dead_after_die (h.reclaims k i seen hk)

/-- Every step keeps the slots of live registrations theirs. -/
theorem Inv.step (h : s.Inv count) {a : RegistryLabel ρ κ} (hs : s.step count a = some s') :
    s'.Inv count := by
  cases a with
  | handle r a =>
    simp only [Registry.step] at hs
    split_ifs at hs with hr
    obtain ⟨⟨x, regs⟩, hx, rfl⟩ := Option.map_eq_some_iff.mp hs
    exact h.handle hr (Handle.step_effect hx)
  | scan k =>
    obtain ⟨⟨x, regs⟩, hx, rfl⟩ := Option.map_eq_some_iff.mp hs
    refine h.setScanner (fun r i hr hi => h.scanned hx hr hi) fun i seen heq => ?_
    subst heq
    exact Scanner.step_reclaim hx
  | beginPrune k =>
    simp only [Registry.step] at hs
    split_ifs at hs
    cases hs
    exact h.setScanner (fun _ _ _ _ => rfl) (by rintro _ _ ⟨⟩)
  | beginMin k =>
    simp only [Registry.step] at hs
    split_ifs at hs
    cases hs
    exact h.setScanner (fun _ _ _ _ => rfl) (by rintro _ _ ⟨⟩)
  | die pid =>
    cases hs
    exact h.die pid

omit [DecidableEq ρ] [DecidableEq κ] in
theorem init_inv (alive : ℕ → Bool) : (init ρ κ alive).Inv count := by
  refine ⟨rfl, fun r _ => ⟨by rintro i ⟨⟩, trivial⟩, ?_, ?_⟩
  · rintro r r' i - - ⟨⟩
  · rintro k i seen ⟨⟩

omit [DecidableEq ρ] [DecidableEq κ] in
/-- The slot of a live registration is what it stored. -/
theorem Inv.live (h : s.Inv count) {r : ρ} {pid i cursor : ℕ}
    (hr : s.handles r = .live pid i cursor) (halive : s.alive pid = true) :
    i < count ∧ s.regs i = ⟨pid, 1, cursor⟩ := by
  have hacts : s.acts r = true := by
    unfold acts
    rw [hr]
    exact halive
  have hinv := h.owns r hacts
  rw [hr] at hinv
  obtain ⟨hown, hactive, hcursor⟩ := hinv
  obtain ⟨hlt, hpid⟩ := hown i rfl
  refine ⟨hlt, ?_⟩
  cases hslot : s.regs i with
  | mk p a c =>
    rw [hslot] at hpid hactive hcursor
    cases Option.some_injective _ hpid
    cases hactive
    cases hcursor
    rfl

end Registry

/-! ## Cursors that may also move back -/

/-- The registry's steps other than those of a consumer with its registration. -/
def RegistryLabel.others {ρ κ : Type} : RegistryLabel ρ κ → Bool
  | .handle _ .drop | .handle _ (.updateCursor _) => false
  | _ => true

/-- `update_cursor` by the owner of a registration. -/
def Registry.store {ρ κ : Type} [DecidableEq ρ] (s : Registry ρ κ) (r : ρ) (stored : Option ℕ) :
    Registry ρ κ :=
  match stored, s.handles r with
  | some seq, .live pid i _ =>
    { s with
      regs := updateCursor s.regs i seq
      handles := Function.update s.handles r (.live pid i seq) }
  | _, _ => s

namespace Registry

variable {ρ κ : Type} [DecidableEq ρ] {count : ℕ} {s s' : Registry ρ κ} {r : ρ} {pid i p : ℕ}
  {stored : Option ℕ}

theorem store_handles (h : s.handles r = .live pid i p) :
    (s.store r stored).handles r = .live pid i (stored.getD p) := by
  unfold store
  cases stored with
  | none => exact h
  | some seq =>
    rw [h]
    exact Function.update_self ..

theorem store_handles_of_ne {r' : ρ} (hne : r' ≠ r) :
    (s.store r stored).handles r' = s.handles r' := by
  unfold store
  split
  · exact Function.update_of_ne hne _ _
  · rfl

theorem store_alive : (s.store r stored).alive = s.alive := by
  unfold store
  split <;> rfl

/-- The owner of a registration may store any cursor. -/
theorem Inv.store (h : s.Inv count) (hr : s.acts r = true) : (s.store r stored).Inv count := by
  unfold Registry.store
  split
  · next seq pid i p hlive =>
    have hown : (s.handles r).holds = some i := by rw [hlive]; rfl
    have hinv := h.owns r hr
    rw [hlive] at hinv
    refine h.setHandle hr (fun j hj => ?_) ?_ ?_
    · apply Function.update_of_ne
      rintro rfl
      exact hj (.inl hown)
    · rintro j ⟨⟩
      exact .inl hown
    · refine ⟨?_, ?_, ?_⟩
      · rintro j ⟨⟩
        simp only [updateCursor, Function.update_self]
        exact hinv.1 i rfl
      · simp only [updateCursor, Function.update_self]
        exact hinv.2.1
      · simp only [updateCursor, Function.update_self]
  · exact h

/-- A dead process stays dead. -/
theorem step_dead [DecidableEq κ] {a : RegistryLabel ρ κ} {q : ℕ}
    (hstep : s.step count a = some s') (hq : s.alive q = false) : s'.alive q = false := by
  cases a with
  | handle r' a =>
    simp only [Registry.step] at hstep
    split_ifs at hstep
    obtain ⟨x, -, rfl⟩ := Option.map_eq_some_iff.mp hstep
    exact hq
  | scan k =>
    obtain ⟨x, -, rfl⟩ := Option.map_eq_some_iff.mp hstep
    exact hq
  | beginPrune k | beginMin k =>
    simp only [Registry.step] at hstep
    split_ifs at hstep
    cases hstep
    exact hq
  | die pid =>
    cases hstep
    exact dead_after_die hq

/-- Nobody but its owner does anything to a live registration. -/
theorem step_live [DecidableEq κ] {a : RegistryLabel ρ κ} (hothers : a.others = true)
    (hstep : s.step count a = some s') (h : s.handles r = .live pid i p) :
    s'.handles r = .live pid i p := by
  cases a with
  | handle r' a =>
    simp only [Registry.step] at hstep
    split_ifs at hstep
    obtain ⟨⟨x, regs⟩, hx, rfl⟩ := Option.map_eq_some_iff.mp hstep
    rcases eq_or_ne r r' with rfl | hne
    · rw [h] at hx
      cases a with
      | register | tick => cases hx
      | updateCursor | drop => cases hothers
    · exact (Function.update_of_ne hne _ _).trans h
  | scan k =>
    obtain ⟨x, -, rfl⟩ := Option.map_eq_some_iff.mp hstep
    exact h
  | beginPrune k | beginMin k =>
    simp only [Registry.step] at hstep
    split_ifs at hstep
    cases hstep
    exact h
  | die pid =>
    cases hstep
    exact h

end Registry

/-! ## What `min_cursor` returns -/

/-- Once `min_cursor` has passed slot `i`, its minimum is at most `cursor`. -/
def Scanner.Saw (x : Scanner) (i cursor : ℕ) : Prop :=
  match x with
  | .loadActive j min | .loadPid j min | .loadCursor j min =>
    i < j → ∃ m, min = some m ∧ m ≤ cursor
  | .returned min => ∃ m, min = some m ∧ m ≤ cursor
  | _ => False

theorem Scanner.Saw.mono {x : Scanner} {i cursor cursor' : ℕ} (h : x.Saw i cursor)
    (hle : cursor ≤ cursor') : x.Saw i cursor' := by
  cases x with
  | loadActive j min | loadPid j min | loadCursor j min =>
    intro hlt
    obtain ⟨m, hm, hmle⟩ := h hlt
    exact ⟨m, hm, hmle.trans hle⟩
  | returned min =>
    obtain ⟨m, hm, hmle⟩ := h
    exact ⟨m, hm, hmle.trans hle⟩
  | idle | prune | judge | reclaim => exact h.elim

/-- `min_cursor` does not pass over a slot that is owned and active, and takes in its cursor. -/
theorem Scanner.Saw.step {count : ℕ} {alive : ℕ → Bool} {regs regs' : ℕ → ReaderSlot}
    {x x' : Scanner} {i pid cursor : ℕ} (h : x.Saw i cursor) (hi : i < count)
    (hslot : regs i = ⟨pid, 1, cursor⟩) (hpid : pid ≠ 0)
    (hs : x.step count alive regs = some (x', regs')) : x'.Saw i cursor := by
  cases x with
  | loadActive j min =>
    rw [Scanner.step] at hs
    split_ifs at hs with hj hactive
    · cases hs
      exact h
    · -- a slot that is not active is passed over: it is not the one of the registration
      cases hs
      intro hlt
      have hne : i ≠ j := by
        rintro rfl
        rw [hslot] at hactive
        exact hactive rfl
      exact h (by omega)
    -- the end of the scan: every slot was passed
    · cases hs
      exact h (by omega)
  | loadPid j min =>
    rw [Scanner.step] at hs
    split_ifs at hs with howned
    · cases hs
      exact h
    · cases hs
      intro hlt
      have hne : i ≠ j := by
        rintro rfl
        rw [hslot] at howned
        exact howned hpid
      exact h (by omega)
  | loadCursor j min =>
    cases hs
    intro hlt
    -- its own cursor goes into the minimum, and the others do not raise it
    refine ⟨_, rfl, ?_⟩
    rcases eq_or_ne i j with rfl | hne
    · rw [hslot]
      exact RingProducer.minSeq_le_right min cursor
    · exact RingProducer.minSeq_le (h (by omega))
  | idle | returned => cases hs
  | prune | judge | reclaim => exact h.elim

namespace Registry

variable {ρ κ : Type} {count : ℕ} {s₀ s s' : Registry ρ κ}

/-- Every registration that was complete in `s₀` is still live in `s`, with a cursor that the
scanning thread `k` took in if it has passed its slot, or its drop has begun. -/
def Watched (k : κ) (s₀ s : Registry ρ κ) : Prop :=
  ∀ r pid i c₀, s₀.handles r = .live pid i c₀ →
    (∃ pc, s.handles r = .dropping pid i pc) ∨
      ∃ c, s.handles r = .live pid i c ∧ (s.alive pid = true → (s.scanners k).Saw i c)

/-- What becomes of a live registration and of one that is being dropped. -/
theorem live_step {alive : ℕ → Bool} {regs regs' : ℕ → ReaderSlot} {h h' : Handle}
    (he : Handle.Effect count alive regs h h' regs') (pid i : ℕ) :
    (∀ pc, h = .dropping pid i pc → ∃ pc', h' = .dropping pid i pc') ∧
      ∀ c, h = .live pid i c →
        (∃ pc', h' = .dropping pid i pc') ∨ ∃ c', h' = .live pid i c' ∧ c ≤ c' := by
  constructor
  · rintro pc rfl
    cases he with
    | pass _ _ _ _ searching => rcases searching with ⟨_, hx⟩ | ⟨_, _, hx⟩ <;> cases hx
    | deactivate => exact ⟨_, rfl⟩
    | release => exact ⟨_, rfl⟩
  · rintro c rfl
    cases he with
    | pass _ _ _ _ _ free => cases free
    | update _ _ _ seq le => exact .inr ⟨seq, rfl, le⟩
    | drop => exact .inl ⟨_, rfl⟩

variable [DecidableEq ρ] [DecidableEq κ] {k : κ}

/-- Every step keeps the watch, as long as the thread begins no other scan. -/
theorem Watched.step (hw : Watched k s₀ s) (h : s.Inv count) {a : RegistryLabel ρ κ}
    (ha : a ≠ .beginMin k ∧ a ≠ .beginPrune k) (hs : s.step count a = some s') :
    Watched k s₀ s' := by
  intro r pid i c₀ hr₀
  have hr := hw r pid i c₀ hr₀
  cases a with
  | handle r' a =>
    simp only [Registry.step] at hs
    split_ifs at hs
    obtain ⟨⟨x, regs⟩, hx, rfl⟩ := Option.map_eq_some_iff.mp hs
    rcases eq_or_ne r r' with rfl | hne
    · simp only [Function.update_self]
      obtain ⟨hdropping, hlive⟩ := live_step (Handle.step_effect hx) pid i
      rcases hr with ⟨pc, hpc⟩ | ⟨c, hc, hsaw⟩
      · exact .inl (hdropping pc hpc)
      · rcases hlive c hc with hdrop | ⟨c', hc', hle⟩
        · exact .inl hdrop
        · -- the cursor moved forward behind the scan
          exact .inr ⟨c', hc', fun halive => (hsaw halive).mono hle⟩
    · simp only [Function.update_of_ne hne]
      exact hr
  | scan k' =>
    obtain ⟨⟨x, regs⟩, hx, rfl⟩ := Option.map_eq_some_iff.mp hs
    rcases hr with hdrop | ⟨c, hc, hsaw⟩
    · exact .inl hdrop
    · refine .inr ⟨c, hc, fun halive => ?_⟩
      rcases eq_or_ne k k' with rfl | hne
      · -- the slot is the registration's at the moment of the load
        obtain ⟨hlt, hslot⟩ := h.live hc halive
        have hpid : pid ≠ 0 := by
          rintro rfl
          rw [h.zero] at halive
          cases halive
        simp only [Function.update_self]
        exact (hsaw halive).step hlt hslot hpid hx
      · simp only [Function.update_of_ne hne]
        exact hsaw halive
  -- another thread starts its own scan
  | beginPrune k' =>
    simp only [Registry.step] at hs
    split_ifs at hs
    cases hs
    have hne : k ≠ k' := by
      rintro rfl
      exact ha.2 rfl
    simp only [Function.update_of_ne hne]
    exact hr
  | beginMin k' =>
    simp only [Registry.step] at hs
    split_ifs at hs
    cases hs
    have hne : k ≠ k' := by
      rintro rfl
      exact ha.1 rfl
    simp only [Function.update_of_ne hne]
    exact hr
  | die q =>
    cases hs
    rcases hr with hdrop | ⟨c, hc, hsaw⟩
    · exact .inl hdrop
    · exact .inr ⟨c, hc, fun halive => hsaw (alive_before_die halive)⟩

omit [DecidableEq ρ] in
/-- When `min_cursor` begins it has passed no slot. -/
theorem watched_beginMin :
    Watched k s { s with scanners := Function.update s.scanners k (.loadActive 0 none) } := by
  intro r pid i c hr
  refine .inr ⟨c, hr, fun _ => ?_⟩
  simp only [Function.update_self]
  exact fun hlt => absurd hlt (Nat.not_lt_zero i)

end Registry

/-- **A live registration owns its slot alone, and `min_cursor` misses none.** Whatever processes
register, update their cursors, drop their registrations, die and scan the registry, one memory
access at a time in any order: no two live registrations own one slot; the slot of a registration
that is complete and not yet being dropped holds its process, is active and holds the cursor stored
last; and what `min_cursor` returns is at most the cursor of every registration that was complete
when it was called and still is when it returns. -/
theorem registry_exclusive {ρ κ : Type} [DecidableEq ρ] [DecidableEq κ] {count : ℕ}
    {alive : ℕ → Bool} {s : Registry ρ κ}
    (h : Transition.Reaches (Registry.step count) (.init ρ κ alive) s) :
    (∀ r r' i, s.acts r = true → s.acts r' = true → (s.handles r).holds = some i →
      (s.handles r').holds = some i → r = r') ∧
    (∀ r pid i cursor, s.handles r = .live pid i cursor → s.alive pid = true →
      s.regs i = ⟨pid, 1, cursor⟩) ∧
    ∀ k s₁ as s₂ min, s.step count (.beginMin k) = some s₁ →
      Transition.run (Registry.step count) s₁ as = some s₂ →
      (∀ a ∈ as, a ≠ .beginMin k ∧ a ≠ .beginPrune k) → s₂.scanners k = .returned min →
      ∀ r pid i c₀ pid' i' c, s.handles r = .live pid i c₀ → s₂.handles r = .live pid' i' c →
        s₂.alive pid' = true → ∃ m, min = some m ∧ m ≤ c := by
  have hinv : s.Inv count := h.invariant (fun hi hs => hi.step hs) (Registry.init_inv alive)
  refine ⟨hinv.apart, fun r pid i cursor hr halive => (hinv.live hr halive).2, ?_⟩
  intro k s₁ as s₂ min hbegin hrun has hreturned r pid i c₀ pid' i' c hr₀ hr halive
  have hinv₁ := hinv.step hbegin
  have hwatched₁ : Registry.Watched k s s₁ := by
    simp only [Registry.step] at hbegin
    split_ifs at hbegin
    cases hbegin
    exact Registry.watched_beginMin
  -- from the first load of the scan to its last one, the watch goes with the invariant
  have hend : s₂.Inv count ∧ Registry.Watched k s s₂ := Transition.run_invariant
    (P := fun x => x.Inv count ∧ Registry.Watched k s x)
    (Q := fun a => a ≠ .beginMin k ∧ a ≠ .beginPrune k)
    (fun ha hx hs => ⟨hx.1.step hs, hx.2.step hx.1 ha hs⟩) has ⟨hinv₁, hwatched₁⟩ hrun
  rcases hend.2 r pid i c₀ hr₀ with ⟨pc, hpc⟩ | ⟨c', hc', hsaw⟩
  · rw [hr] at hpc
    cases hpc
  · rw [hr] at hc'
    cases hc'
    have hmin := hsaw halive
    rwa [hreturned] at hmin

/-- A registration of process `7` is complete and the process dies; process `8` takes its slot. -/
def takesOver : List (RegistryLabel Bool Unit) :=
  .handle false (.register 7 3) :: List.replicate 7 (.handle false .tick) ++
    .die 7 :: .handle true (.register 8 5) :: List.replicate 7 (.handle true .tick)

/-- `min_cursor` on two slots; the cursor moves on behind it. -/
def scansSlots : List (RegistryLabel Bool Unit) :=
  List.replicate 3 (.scan ()) ++ .handle true (.updateCursor 6) :: List.replicate 2 (.scan ())

/-- Process `8` owns the slot, and `min_cursor` returns the cursor it had. -/
theorem registry_exclusive_taken_over :
    ∃ s s₁ s₂ : Registry Bool Unit,
      Transition.Reaches (Registry.step 2) (.init Bool Unit fun _ => true) s ∧
      s.step 2 (.beginMin ()) = some s₁ ∧
      Transition.run (Registry.step 2) s₁ scansSlots = some s₂ ∧
      s.regs 0 = ⟨8, 1, 5⟩ ∧ s₂.scanners () = .returned (some 5) ∧
      s₂.handles true = .live 8 0 6 ∧ ∃ m, some 5 = some m ∧ m ≤ 6 := by
  obtain ⟨s, s₁, s₂, hs, hs₁, hs₂, hr, hr₂, hk, halive, halive₂⟩ :
      ∃ s s₁ s₂ : Registry Bool Unit,
        Transition.run (Registry.step 2) (.init Bool Unit fun _ => true) takesOver = some s ∧
        s.step 2 (.beginMin ()) = some s₁ ∧
        Transition.run (Registry.step 2) s₁ scansSlots = some s₂ ∧
        s.handles true = .live 8 0 5 ∧ s₂.handles true = .live 8 0 6 ∧
        s₂.scanners () = .returned (some 5) ∧ s.alive 8 = true ∧ s₂.alive 8 = true :=
    ⟨_, _, _, rfl, rfl, rfl, rfl, rfl, rfl, rfl, rfl⟩
  obtain ⟨-, hslot, hmin⟩ := registry_exclusive ⟨takesOver, hs⟩
  refine ⟨s, s₁, s₂, ⟨takesOver, hs⟩, hs₁, hs₂, hslot true 8 0 5 hr halive, hk, hr₂, ?_⟩
  exact hmin () s₁ scansSlots s₂ (some 5) hs₁ hs₂ (by decide) hk true 8 0 5 8 0 6 hr hr₂ halive₂

end Ringfire
