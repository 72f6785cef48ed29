import Ringfire.Files.Clean

/-!
# Adopting a ring

`MirrorRing::adopt` opens the file, takes its lock and goes on; it does not look at the path again,
as `create_backing_file` does. If the path is replaced in between, the mirror has locked an inode
that no path leads to any more, and never will again.

## Main definitions

* `Files.Unreplaced`: the path still names the inode that `adopt` opened when it gets the lock

## Main results

* `adopt_takes_over`: then the mirror has the inode that the path names, alone, until it drops it;
  and otherwise the path never names that inode again
* `adopt_orphan`: a mirror may adopt an inode that the path does not name
-/

namespace Ringfire

open DirectoryEntry

/-- The inode whose lock `adopt` is about to ask for. -/
def Agent.adopts : Agent → Option ℕ
  | adopting (.locking i) => some i
  | _ => none

namespace Files

variable {η : Type} {s s' : Files η} {a : η} {x : Agent} {e : Entry η}

/-- When `adopt` gets the lock of the inode it opened, the path still names it. Nobody calls
`ringfire clean`. -/
def Unreplaced (s : Files η) : FilesLabel η → Prop
  | .act a _ => ∀ i ∈ (s.agents a).adopts, s.entry.holder i = none → s.entry.name = some i
  | .call _ what => what ≠ .clean
  | .fail _ | .drop _ _ | .die _ => True

instance [DecidableEq η] (s : Files η) (l : FilesLabel η) : Decidable (s.Unreplaced l) :=
  match l with
  | .act a _ => inferInstanceAs (Decidable (∀ i ∈ (s.agents a).adopts, _))
  | .call _ what => inferInstanceAs (Decidable (what ≠ .clean))
  | .fail _ | .drop _ _ | .die _ => .isTrue trivial

/-- The path names every inode that a mirror has locked to adopt it. -/
structure AdoptInv (s : Files η) : Prop extends s.Inv where
  noCleaner : s.NoCleaner
  taken : ∀ a i, (s.agents a).role = .adopter → (s.agents a).holds = some i →
    s.entry.name = some i

variable [DecidableEq η]

/-- What is taken stays taken when the path does not change and the agent that moved has taken
nothing new. -/
theorem AdoptInv.taken_set (h : s.AdoptInv) (hname : e.name = s.entry.name)
    (hx : ∀ i, x.role = .adopter → x.holds = some i → s.entry.name = some i) :
    ∀ b i, ((s.set a x e).agents b).role = .adopter → ((s.set a x e).agents b).holds = some i →
      e.name = some i := by
  intro b i
  rw [hname]
  rcases eq_or_ne b a with rfl | hne
  · rw [set_agents_self]
    exact hx i
  · rw [set_agents_of_ne hne]
    exact h.taken b i

/-- What is taken stays taken when `adopt` gets only locks of the inode that the path names. -/
theorem AdoptInv.taken_effect (h : s.AdoptInv) (he : Agent.Effect s.entry a (s.agents a) x e)
    (hlock : ∀ i, (s.agents a).adopts = some i → s.entry.holder i = none →
      s.entry.name = some i) :
    ∀ b i, ((s.set a x e).agents b).role = .adopter → ((s.set a x e).agents b).holds = some i →
      e.name = some i := by
  generalize hy : s.agents a = y at he hlock
  cases he with
  | same _ _ file holds =>
    refine h.taken_set rfl fun i hrole hi => ?_
    obtain ⟨hi', hrole'⟩ := holds i hi
    rw [hrole', ← hy] at hrole
    rw [← hy] at hi'
    exact h.taken a i hrole hi'
  | create size tries unnamed =>
    -- nothing was taken while the path named nothing
    intro b i hrole hi
    rcases eq_or_ne b a with rfl | hne
    · rw [set_agents_self] at hi
      cases hi
    · rw [set_agents_of_ne hne] at hrole hi
      rw [h.taken b i hrole hi] at unnamed
      cases unnamed
  | lock _ _ i who free =>
    refine h.taken_set rfl fun j hrole hj => ?_
    cases who with
    | adopt =>
      cases hj
      exact hlock i rfl free
    | create => cases hrole
    | clean => cases hrole
  | release _ _ i file holds =>
    refine h.taken_set (Entry.release_name _ _ _) fun j _ hj => ?_
    rw [holds] at hj
    cases hj
  | unlink _ _ i who =>
    have hguard : (s.agents a).guards = some i := by
      rw [hy]
      cases who <;> rfl
    intro b j hrole hj
    rcases eq_or_ne b a with rfl | hne
    · rw [set_agents_self] at hrole
      cases who <;> cases hrole
    · -- whoever unlinks the path has locked the inode it names
      rw [set_agents_of_ne hne] at hrole hj
      have hname := h.taken b j hrole hj
      rw [h.named a i hguard] at hname
      cases hname
      exact absurd (h.holder_unique hj (Agent.holds_of_guards hguard)) hne
  | remove i => exact absurd hy (h.noCleaner.not_removing a i)
  | resize size i => exact h.taken_set rfl fun j hrole _ => by cases hrole

theorem AdoptInv.step (h : s.AdoptInv) {l : FilesLabel η} (hl : s.Unreplaced l)
    (hs : s.step l = some s') : s'.AdoptInv := by
  have hclean : ∀ a, l ≠ .call a .clean := by
    rintro a rfl
    exact hl rfl
  have hcleaner := h.noCleaner.step hclean hs
  obtain ⟨x, e, rfl, he⟩ := step_effect hs
  have hinv := h.toInv.effect he fun i hi => absurd hi (h.noCleaner.not_removing _ i)
  refine ⟨hinv, hcleaner, ?_⟩
  by_cases hact : ∃ a good, l = .act a good
  · obtain ⟨a, good, rfl⟩ := hact
    exact h.taken_effect he fun i hi => hl i hi
  · obtain ⟨x', e', heq, hname, -, hholds⟩ :=
      step_other (fun a good heq => hact ⟨a, good, heq⟩) hs
    rw [heq]
    refine h.taken_set hname fun i hrole hi => ?_
    obtain ⟨hi', hrole'⟩ := hholds i hi
    exact h.taken l.agent i (hrole' ▸ hrole) hi'

theorem AdoptInv.reaches {e : Entry η} (he : e.Wf)
    (h : Transition.ReachesBy Unreplaced Files.step (init e) s) : s.AdoptInv :=
  h.invariant (fun hinv hl hs => hinv.step hl hs)
    ⟨init_inv he, by rintro a ⟨⟩, by rintro a i ⟨⟩⟩

omit [DecidableEq η] in
/-- A mirror that adopted a ring is the only one who writes to what the path names. -/
theorem AdoptInv.alone (h : s.AdoptInv) {i : ℕ} (ha : s.agents a = .adopted i) {b : η}
    (hne : b ≠ a) (j : ℕ) : s.agents b ≠ .live j ∧ s.agents b ≠ .adopted j := by
  have hname := h.taken a i (by rw [ha]; rfl) (by rw [ha]; rfl)
  constructor
  · intro hb
    rw [(h.toInv.live hb).1] at hname
    cases hname
    exact hne (h.holder_unique (i := i) (by rw [hb]; rfl) (by rw [ha]; rfl))
  · intro hb
    rw [h.taken b j (by rw [hb]; rfl) (by rw [hb]; rfl)] at hname
    cases hname
    exact hne (h.holder_unique (i := i) (by rw [hb]; rfl) (by rw [ha]; rfl))

/-! ## An inode that is not named any more -/

/-- The path comes to name new inodes only. -/
theorem effect_name {y : Agent} {e e' : Entry η} (he : Agent.Effect e a y x e') :
    e.count ≤ e'.count ∧ ∀ i, e'.name = some i → e.name = some i ∨ e.count ≤ i := by
  cases he with
  | create size tries unnamed =>
    refine ⟨Nat.le_succ _, ?_⟩
    rintro i ⟨⟩
    exact .inr (Nat.le_refl _)
  | release _ _ i =>
    rw [Entry.release_count, Entry.release_name]
    exact ⟨Nat.le_refl _, fun i hi => .inl hi⟩
  | same | lock | resize => exact ⟨Nat.le_refl _, fun i hi => .inl hi⟩
  | unlink | remove => exact ⟨Nat.le_refl _, by rintro i ⟨⟩⟩

/-- An inode that the path does not name is never named again. -/
theorem never_named {i : ℕ} {ls : List (FilesLabel η)} (hlt : i < s.entry.count)
    (hname : s.entry.name ≠ some i) (hrun : Transition.run Files.step s ls = some s') :
    s'.entry.name ≠ some i := by
  -- the inode stays among those there are, and only new ones come to be named
  have hend : i < s'.entry.count ∧ s'.entry.name ≠ some i := Transition.run_invariant
    (P := fun s => i < s.entry.count ∧ s.entry.name ≠ some i) (Q := fun _ => True)
    (fun _ h hs => by
      obtain ⟨x, e, rfl, he⟩ := step_effect hs
      obtain ⟨hcount, hnames⟩ := effect_name he
      refine ⟨Nat.lt_of_lt_of_le h.1 hcount, fun hi => ?_⟩
      rcases hnames i hi with hi | hle
      · exact h.2 hi
      · exact absurd h.1 (Nat.not_lt.mpr hle))
    (fun _ _ => trivial) ⟨hlt, hname⟩ hrun
  exact hend.2

end Files

/-- **Adopting takes over what the path names if the path was not replaced between `open` and
`flock`.** In every run in which each lock that `adopt` gets is that of the inode the path then
names, a mirror that adopted a ring holds the lock of the inode that the path names, and nobody else
is a producer or a mirror on the path. And in no run can it be otherwise: the path names the inode
that `adopt` has locked at some moment from the lock on if and only if it named it at the lock. -/
theorem adopt_takes_over {η : Type} [DecidableEq η] {e : Entry η} (he : e.Wf) :
    (∀ s, Transition.ReachesBy Files.Unreplaced Files.step (.init e) s →
      ∀ a i, s.agents a = .adopted i →
        s.entry.name = some i ∧ s.entry.holder i = some a ∧
          ∀ b j, b ≠ a → s.agents b ≠ .live j ∧ s.agents b ≠ .adopted j) ∧
    ∀ ls s, (∀ l ∈ ls, ∀ a, l ≠ .call a .clean) →
      Transition.run Files.step (.init e) ls = some s →
      ∀ a i good s₁, s.agents a = .adopting (.locking i) → s.step (.act a good) = some s₁ →
        s₁.agents a = .adopting (.mapping i) →
        ((∃ ls' s₂, Transition.run Files.step s₁ ls' = some s₂ ∧ s₂.entry.name = some i) ↔
          s.entry.name = some i) := by
  refine ⟨fun s hs a i ha => ?_, fun ls s hls hrun a i good s₁ ha hs hlocked => ?_⟩
  · have hinv := Files.AdoptInv.reaches he hs
    refine ⟨hinv.taken a i (by rw [ha]; rfl) (by rw [ha]; rfl),
      hinv.held a i (by rw [ha]; rfl), fun b j hne => hinv.alone ha hne j⟩
  · obtain ⟨hinv, -⟩ := Files.Inv.run he hls hrun
    -- the lock changes neither the path nor the inodes there are
    have hentry : s₁.entry.name = s.entry.name ∧ i < s₁.entry.count := by
      have hlt := hinv.opened a i (by rw [ha]; rfl)
      obtain ⟨⟨x, e'⟩, hx, rfl⟩ := Option.map_eq_some_iff.mp hs
      rw [ha] at hx
      simp only [Agent.step, Agent.stepAdopt] at hx
      split at hx
      · next e'' hlock =>
        obtain ⟨-, rfl⟩ := Entry.tryLock_eq_some.mp hlock
        cases hx
        exact ⟨rfl, hlt⟩
      · cases hx
        exact ⟨rfl, hlt⟩
    constructor
    · rintro ⟨ls', s₂, hrun', hname⟩
      by_contra hne
      rw [← hentry.1] at hne
      exact Files.never_named hentry.2 hne hrun' hname
    · intro hname
      exact ⟨[], s₁, rfl, hentry.1.trans hname⟩

/-- A mirror adopts the ring that a producer left behind. -/
def adoptsStale : List (FilesLabel Bool) := .call false .adopt :: List.replicate 3 (.act false true)

theorem adopt_takes_over_stale :
    ∃ s : Files Bool,
      Transition.ReachesBy Files.Unreplaced Files.step (.init staleEntry) s ∧
      s.agents false = .adopted 0 ∧ s.entry.name = some 0 ∧ s.entry.holder 0 = some false := by
  obtain ⟨s, hrun, hfalse⟩ : ∃ s : Files Bool,
      Transition.run (Transition.guarded Files.Unreplaced Files.step) (.init staleEntry)
        adoptsStale = some s ∧ s.agents false = .adopted 0 := ⟨_, rfl, rfl⟩
  have hreach : Transition.ReachesBy Files.Unreplaced Files.step (.init staleEntry) s :=
    .of_run adoptsStale .refl hrun
  obtain ⟨hname, hholder, -⟩ := (adopt_takes_over staleEntry_wf).1 s hreach false 0 hfalse
  exact ⟨s, hreach, hfalse, hname, hholder⟩

/-- A mirror has opened the file, a producer replaces it, and the mirror gets the lock of the file
that it opened. -/
def adoptsLate : List (FilesLabel Bool) :=
  .call false .adopt :: .act false true :: .call true (.create 256) ::
    List.replicate 11 (.act true true) ++ [.act false true]

/-- The mirror then adopts an inode that no path leads to from the lock on, and a producer is live
on the path. -/
theorem adopt_orphan :
    ∃ s s₁ : Files Bool, Transition.run Files.step (.init staleEntry) adoptsLate = some s ∧
      s.agents false = .adopting (.mapping 0) ∧ s.step (.act false true) = some s₁ ∧
      s₁.agents false = .adopted 0 ∧ s₁.agents true = .live 1 ∧ s₁.entry.name = some 1 ∧
      ∀ ls s₂, Transition.run Files.step s ls = some s₂ → s₂.entry.name ≠ some 0 := by
  obtain ⟨s, s₁, hrun, hfalse, hs, hfalse₁, htrue₁, hname₁, hname, hcount⟩ :
      ∃ s s₁ : Files Bool, Transition.run Files.step (.init staleEntry) adoptsLate = some s ∧
        s.agents false = .adopting (.mapping 0) ∧ s.step (.act false true) = some s₁ ∧
        s₁.agents false = .adopted 0 ∧ s₁.agents true = .live 1 ∧ s₁.entry.name = some 1 ∧
        s.entry.name = some 1 ∧ s.entry.count = 2 :=
    ⟨_, _, rfl, rfl, rfl, rfl, rfl, rfl, rfl, rfl⟩
  refine ⟨s, s₁, hrun, hfalse, hs, hfalse₁, htrue₁, hname₁, fun ls s₂ hrun₂ => ?_⟩
  apply Files.never_named (i := 0) (s := s) _ _ hrun₂
  · rw [hcount]
    exact Nat.zero_lt_two
  · rw [hname]
    rintro ⟨⟩

end Ringfire
