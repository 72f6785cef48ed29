import Ringfire.Files.Agents

/-!
# One live producer

`create_backing_file` looks at the path again once it holds the lock of the inode it opened. Whoever
has seen the path name the inode it has locked is the only one who may unlink the path, and so the
path goes on naming that inode until it does: nobody else gets the lock, and a path that names an
inode is not unlinked without its lock.

## Main definitions

* `Agent.holds`, `Agent.guards`: the inode that somebody has locked, and the one that somebody has
  locked and seen named
* `Agent.Effect`: what a system call does
* `Files.Inv`: locks are held, and guarded inodes are named

## Main results

* `Files.step_effect`: every step is one of these
* `Files.Inv.effect`: each of them keeps the invariant, the unlink of `ringfire clean` if nobody
  guards an inode
* `one_live_producer`: there is one live producer at most, and no creator disturbs it
-/

namespace Ringfire

open DirectoryEntry

namespace Agent

/-- The inode that somebody has locked for sure. -/
def holds : Agent → Option ℕ
  | creating _ (.statting _ i) | creating _ (.checking _ i _) => some i
  | creating _ (.unlinking _ i) | creating _ (.retrying _ i) | creating _ (.sizing i) => some i
  | cleaning (.scanning i) | cleaning (.unlocking i) => some i
  | adopting (.mapping i) => some i
  | live i | adopted i | unlinking i => some i
  | _ => none

/-- The inode that a creator or a producer has locked and seen the path name. -/
def guards : Agent → Option ℕ
  | creating _ (.unlinking _ i) | creating _ (.sizing i) => some i
  | live i | unlinking i => some i
  | _ => none

/-- What somebody works on the path for. -/
inductive Role where
  | producer
  | cleaner
  | adopter
  | nothing
  deriving DecidableEq

def role : Agent → Role
  | creating _ _ | live _ | unlinking _ => .producer
  | cleaning _ => .cleaner
  | adopting _ | adopted _ => .adopter
  | idle | closing _ | ended => .nothing

/-- `ringfire clean` has given up its lock and has not unlinked the path yet. -/
def unlocked : Agent → Bool
  | cleaning (.closing _) | cleaning (.removing _) => true
  | _ => false

/-- Who gets the lock of inode `i`. -/
inductive Locks (i : ℕ) : Agent → Agent → Prop where
  | create (size tries : ℕ) :
      Locks i (creating size (.locking tries i)) (creating size (.statting tries i))
  | clean : Locks i (cleaning (.locking i)) (cleaning (.scanning i))
  | adopt : Locks i (adopting (.locking i)) (adopting (.mapping i))

/-- Who unlinks the path that names inode `i`, apart from `ringfire clean`. -/
inductive Unlinks (i : ℕ) : Agent → Agent → Prop where
  | create (size tries : ℕ) :
      Unlinks i (creating size (.unlinking tries i)) (creating size (.retrying tries i))
  | drop : Unlinks i (unlinking i) (closing i)

/-- What a system call does, or the beginning of a call or of a drop, or a death. -/
inductive Effect {η : Type} [DecidableEq η] (e : Entry η) (a : η) :
    Agent → Agent → Entry η → Prop where
  | same (x x' : Agent) (file : ∀ i, x'.file = some i → x.file = some i ∨ e.name = some i)
      (holds : ∀ i, x'.holds = some i → x.holds = some i ∧ x'.role = x.role)
      (guards : ∀ i, x'.guards = some i → x.guards = some i ∨ x.holds = some i ∧ e.name = some i)
      (unlocked : x'.unlocked = false) : Effect e a x x' e
  | create (size tries : ℕ) (unnamed : e.name = none) :
      Effect e a (creating size (.opening (tries + 1))) (creating size (.locking tries e.count))
        { e with
          name := some e.count
          count := e.count + 1
          len := Function.update e.len e.count 0 }
  | lock (x x' : Agent) (i : ℕ) (who : Locks i x x') (free : e.holder i = none) :
      Effect e a x x' { e with holder := Function.update e.holder i (some a) }
  | release (x x' : Agent) (i : ℕ) (file : ∀ j, x'.file = some j → x.file = some j)
      (holds : x'.holds = none)
      (unlocked : x'.unlocked = true → x.unlocked = true ∨ x = cleaning (.unlocking i)) :
      Effect e a x x' (e.release a i)
  | unlink (x x' : Agent) (i : ℕ) (who : Unlinks i x x') : Effect e a x x' e.unlink
  | remove (i : ℕ) : Effect e a (cleaning (.removing i)) ended e.unlink
  | resize (size i : ℕ) : Effect e a (creating size (.sizing i)) (live i) (e.setLen i size)

/-- Whoever guards an inode has locked it. -/
theorem holds_of_guards {x : Agent} {i : ℕ} (h : x.guards = some i) : x.holds = some i := by
  unfold guards at h
  split at h <;> cases h <;> rfl

theorem role_of_guards {x : Agent} {i : ℕ} (h : x.guards = some i) : x.role = .producer := by
  unfold guards at h
  split at h <;> cases h <;> rfl

/-- Whoever has locked an inode has it open. -/
theorem file_of_holds {x : Agent} {i : ℕ} (h : x.holds = some i) : x.file = some i := by
  unfold holds at h
  split at h <;> cases h <;> rfl

section Effects

variable {η : Type} [DecidableEq η] {e : Entry η} {a : η}

/-- Nothing happens but that somebody turns to a state in which nothing is locked or open. -/
theorem Effect.idle {x x' : Agent} (file : x'.file = none) (holds : x'.holds = none)
    (unlocked : x'.unlocked = false) : Effect e a x x' e := by
  refine .same x x' ?_ ?_ ?_ unlocked
  · rw [file]
    rintro i ⟨⟩
  · rw [holds]
    rintro i ⟨⟩
  · intro i hi
    rw [holds_of_guards hi] at holds
    cases holds

/-- The file that is open will be closed, and nothing else happens. -/
theorem Effect.leave {x : Agent} {i : ℕ} (hx : x.file = some i) : Effect e a x (closing i) e := by
  refine .same x _ ?_ ?_ ?_ rfl
  · rintro j ⟨⟩
    exact .inl hx
  · rintro j ⟨⟩
  · rintro j ⟨⟩

/-- A file that is open stays open, and what is locked stays locked. -/
theorem Effect.keep {x x' : Agent} {i : ℕ} (hfile : x.file = some i) (hfile' : x'.file = some i)
    (hholds : ∀ j, x'.holds = some j → x.holds = some j ∧ x'.role = x.role)
    (hguards : ∀ j, x'.guards = some j → e.name = some j) (hunlocked : x'.unlocked = false) :
    Effect e a x x' e := by
  refine .same x x' (fun j hj => ?_) hholds (fun j hj => ?_) hunlocked
  · rw [hfile'] at hj
    rw [hfile]
    exact .inl hj
  · exact .inr ⟨(hholds j (holds_of_guards hj)).1, hguards j hj⟩

/-- The file that the path names is opened. -/
theorem Effect.opens {x x' : Agent} {i : ℕ} (hname : e.name = some i) (hfile : x'.file = some i)
    (hholds : x'.holds = none) (hunlocked : x'.unlocked = false) : Effect e a x x' e := by
  refine .same x x' ?_ ?_ ?_ hunlocked
  · intro j hj
    rw [hfile] at hj
    cases hj
    exact .inr hname
  · rw [hholds]
    rintro j ⟨⟩
  · intro j hj
    rw [holds_of_guards hj] at hholds
    cases hholds

theorem stepCreate_effect (size : ℕ) (pc : CreatePc) :
    Effect e a (creating size pc) (stepCreate e a size pc).1 (stepCreate e a size pc).2 := by
  cases pc with
  | opening tries =>
    cases tries with
    | zero => exact .idle rfl rfl rfl
    | succ tries =>
      -- `O_CREAT`: the name leads somewhere, or a new inode gets it
      rcases e.openOrCreate_cases with ⟨i, hname, heq⟩ | ⟨hnone, heq⟩
      · simp only [stepCreate, heq]
        exact .opens hname rfl rfl rfl
      · simp only [stepCreate, heq]
        exact .create size tries hnone
  | locking tries i =>
    simp only [stepCreate]
    split
    · next e' hlock =>
      obtain ⟨hfree, rfl⟩ := Entry.tryLock_eq_some.mp hlock
      exact .lock _ _ i (.create size tries) hfree
    · exact .leave rfl
  | statting tries i =>
    exact .keep (i := i) rfl rfl (fun j hj => ⟨hj, rfl⟩) (by rintro j ⟨⟩) rfl
  | checking tries i len =>
    simp only [stepCreate]
    -- only a creator that found its inode under the name goes on with it
    split_ifs with hname hlen
    · refine .keep (i := i) rfl rfl (fun j hj => ⟨hj, rfl⟩) ?_ rfl
      rintro j ⟨⟩
      exact hname
    · refine .keep (i := i) rfl rfl (fun j hj => ⟨hj, rfl⟩) ?_ rfl
      rintro j ⟨⟩
      exact hname
    · exact .keep (i := i) rfl rfl (fun j hj => ⟨hj, rfl⟩) (by rintro j ⟨⟩) rfl
  | unlinking tries i =>
    simp only [stepCreate]
    split
    · exact .unlink _ _ i (.create size tries)
    · exact .leave rfl
  | retrying tries i =>
    exact .release _ _ i (by rintro j ⟨⟩) rfl (by rintro ⟨⟩)
  | sizing i => exact .resize size i

theorem stepClean_effect (good : Bool) (pc : CleanPc) :
    Effect e a (cleaning pc) (stepClean e a good pc).1 (stepClean e a good pc).2 := by
  cases pc with
  | opening =>
    simp only [stepClean]
    split
    · next i hname => exact .opens hname rfl rfl rfl
    · exact .idle rfl rfl rfl
  | statting i =>
    simp only [stepClean]
    split_ifs
    · exact .keep (i := i) rfl rfl (by rintro j ⟨⟩) (by rintro j ⟨⟩) rfl
    · exact .leave rfl
  | locking i =>
    simp only [stepClean]
    split
    · next e' hlock =>
      obtain ⟨hfree, rfl⟩ := Entry.tryLock_eq_some.mp hlock
      exact .lock _ _ i .clean hfree
    · exact .leave rfl
  | scanning i =>
    simp only [stepClean]
    split_ifs
    · exact .keep (i := i) rfl rfl (fun j hj => ⟨hj, rfl⟩) (by rintro j ⟨⟩) rfl
    · exact .leave rfl
  | unlocking i => exact .release _ _ i (fun j hj => hj) rfl fun _ => .inr rfl
  | closing i => exact .release _ _ i (by rintro j ⟨⟩) rfl fun _ => .inl rfl
  | removing i => exact .remove i

theorem stepAdopt_effect (good : Bool) (pc : AdoptPc) :
    Effect e a (adopting pc) (stepAdopt e a good pc).1 (stepAdopt e a good pc).2 := by
  cases pc with
  | opening =>
    simp only [stepAdopt]
    split
    · next i hname => exact .opens hname rfl rfl rfl
    · exact .idle rfl rfl rfl
  | locking i =>
    simp only [stepAdopt]
    split
    · next e' hlock =>
      obtain ⟨hfree, rfl⟩ := Entry.tryLock_eq_some.mp hlock
      exact .lock _ _ i .adopt hfree
    · exact .leave rfl
  | mapping i =>
    simp only [stepAdopt]
    split_ifs
    · exact .keep (i := i) rfl rfl (fun j hj => ⟨hj, rfl⟩) (by rintro j ⟨⟩) rfl
    · exact .leave rfl

end Effects

end Agent

namespace Files

variable {η : Type} [DecidableEq η] {s s' : Files η} {a : η} {x : Agent} {e : Entry η}

@[simp] theorem set_agents_self (s : Files η) (a : η) (x : Agent) (e : Entry η) :
    (s.set a x e).agents a = x := Function.update_self ..

theorem set_agents_of_ne {b : η} (h : b ≠ a) (s : Files η) (x : Agent) (e : Entry η) :
    (s.set a x e).agents b = s.agents b := Function.update_of_ne h ..

@[simp] theorem set_entry (s : Files η) (a : η) (x : Agent) (e : Entry η) :
    (s.set a x e).entry = e := rfl

/-- Every step moves one agent, and does one of the things there are to do. -/
theorem step_effect {l : FilesLabel η} (hs : s.step l = some s') :
    ∃ x e, s' = s.set l.agent x e ∧ Agent.Effect s.entry l.agent (s.agents l.agent) x e := by
  cases l with
  | call a what =>
    simp only [Files.step] at hs
    split_ifs at hs with hidle
    cases hs
    refine ⟨_, _, rfl, ?_⟩
    cases what with
    | create size => exact .idle rfl rfl rfl
    | clean => exact .idle rfl rfl rfl
    | adopt => exact .idle rfl rfl rfl
  | act a good =>
    obtain ⟨⟨x, e⟩, hx, rfl⟩ := Option.map_eq_some_iff.mp hs
    refine ⟨x, e, rfl, ?_⟩
    simp only [FilesLabel.agent]
    generalize s.agents a = y at hx
    cases y with
    | creating size pc =>
      have heffect := Agent.stepCreate_effect (e := s.entry) (a := a) size pc
      rw [Option.some.inj hx] at heffect
      exact heffect
    | cleaning pc =>
      have heffect := Agent.stepClean_effect (e := s.entry) (a := a) good pc
      rw [Option.some.inj hx] at heffect
      exact heffect
    | adopting pc =>
      have heffect := Agent.stepAdopt_effect (e := s.entry) (a := a) good pc
      rw [Option.some.inj hx] at heffect
      exact heffect
    | unlinking i =>
      cases hx
      exact .unlink _ _ i .drop
    | closing i =>
      cases hx
      exact .release _ _ i (by rintro j ⟨⟩) rfl (by rintro ⟨⟩)
    | idle | live | adopted | ended => cases hx
  | fail a =>
    have hleave : Agent.Effect s.entry a (s.agents a) (s.agents a).leave s.entry := by
      unfold Agent.leave
      cases hfile : (s.agents a).file with
      | none => exact .idle rfl rfl rfl
      | some i => exact .leave hfile
    simp only [Files.step] at hs
    split at hs
    case h_4 => cases hs
    all_goals
      cases hs
      exact ⟨_, _, rfl, hleave⟩
  | drop a unlinkOnDrop =>
    obtain ⟨x, hx, rfl⟩ := Option.map_eq_some_iff.mp hs
    refine ⟨x, _, rfl, ?_⟩
    simp only [FilesLabel.agent]
    generalize s.agents a = y at hx
    cases y with
    | live i =>
      simp only [Agent.drop] at hx
      split_ifs at hx
      · cases hx
        exact .same _ _ (fun j hj => .inl hj) (fun j hj => ⟨hj, rfl⟩) (fun j hj => .inl hj) rfl
      · cases hx
        exact .leave rfl
    | adopted i =>
      cases hx
      exact .leave rfl
    | idle | creating | cleaning | adopting | unlinking | closing | ended => cases hx
  | die a =>
    cases hs
    cases hfile : (s.agents a).file with
    | none => exact ⟨_, _, rfl, .idle rfl rfl rfl⟩
    | some i => exact ⟨_, _, rfl, .release _ _ i (by rintro j ⟨⟩) rfl (by rintro ⟨⟩)⟩

/-! ## Guarded inodes -/

/-- Locks are held by those who have taken them, and the path names every inode that is guarded. -/
structure Inv (s : Files η) : Prop where
  wf : s.entry.Wf
  opened : ∀ a i, (s.agents a).file = some i → i < s.entry.count
  held : ∀ a i, (s.agents a).holds = some i → s.entry.holder i = some a
  named : ∀ a i, (s.agents a).guards = some i → s.entry.name = some i

omit [DecidableEq η] in
theorem init_inv {e : Entry η} (h : e.Wf) : (init e).Inv := by
  refine ⟨h, ?_, ?_, ?_⟩
  · rintro a i ⟨⟩
  · rintro a i ⟨⟩
  · rintro a i ⟨⟩

omit [DecidableEq η] in
/-- Two who have locked one inode are the same. -/
theorem Inv.holder_unique (h : s.Inv) {b : η} {i : ℕ} (ha : (s.agents a).holds = some i)
    (hb : (s.agents b).holds = some i) : a = b := by
  have heq := h.held a i ha
  rw [h.held b i hb] at heq
  exact (Option.some.inj heq).symm

omit [DecidableEq η] in
/-- There is at most one who guards an inode, because there is one path. -/
theorem Inv.guard_unique (h : s.Inv) {b : η} {i j : ℕ} (ha : (s.agents a).guards = some i)
    (hb : (s.agents b).guards = some j) : a = b ∧ i = j := by
  have heq := h.named a i ha
  rw [h.named b j hb] at heq
  obtain rfl := Option.some.inj heq
  exact ⟨h.holder_unique (Agent.holds_of_guards ha) (Agent.holds_of_guards hb), rfl⟩

/-- What holds after a step, when it holds of the agent that moved and of the others. -/
theorem Inv.set (h : s.Inv) (hwf : e.Wf) (hcount : s.entry.count ≤ e.count)
    (hfile : ∀ i, x.file = some i → i < e.count)
    (hheld : ∀ i, x.holds = some i → e.holder i = some a)
    (hnamed : ∀ i, x.guards = some i → e.name = some i)
    (hheld' : ∀ b i, b ≠ a → (s.agents b).holds = some i → e.holder i = some b)
    (hnamed' : ∀ b i, b ≠ a → (s.agents b).guards = some i → e.name = some i) :
    (s.set a x e).Inv := by
  refine ⟨hwf, fun b i => ?_, fun b i => ?_, fun b i => ?_⟩
  · rcases eq_or_ne b a with rfl | hne
    · rw [set_agents_self]
      exact hfile i
    · rw [set_agents_of_ne hne]
      exact fun hi => Nat.lt_of_lt_of_le (h.opened b i hi) hcount
  · rcases eq_or_ne b a with rfl | hne
    · rw [set_agents_self]
      exact hheld i
    · rw [set_agents_of_ne hne]
      exact hheld' b i hne
  · rcases eq_or_ne b a with rfl | hne
    · rw [set_agents_self]
      exact hnamed i
    · rw [set_agents_of_ne hne]
      exact hnamed' b i hne

/-- Unlinking the path is safe when nobody else guards the inode it names. -/
theorem Inv.unlink (h : s.Inv) {i : ℕ} (hfile : ∀ j, x.file = some j → j = i ∧ i < s.entry.count)
    (hholds : ∀ j, x.holds = some j → (s.agents a).holds = some j) (hguards : x.guards = none)
    (hno : ∀ b j, b ≠ a → (s.agents b).guards ≠ some j) : (s.set a x s.entry.unlink).Inv := by
  refine h.set h.wf.unlink (Nat.le_refl _) ?_ ?_ ?_ ?_ ?_
  · intro j hj
    obtain ⟨rfl, hlt⟩ := hfile j hj
    exact hlt
  · exact fun j hj => h.held a j (hholds j hj)
  · rw [hguards]
    rintro j ⟨⟩
  · exact fun b j _ hj => h.held b j hj
  · exact fun b j hne hj => absurd hj (hno b j hne)

/-- Every system call keeps the invariant, the unlink of `ringfire clean` if nobody guards an
inode. -/
theorem Inv.effect (h : s.Inv) (he : Agent.Effect s.entry a (s.agents a) x e)
    (hclean : ∀ i, s.agents a = .cleaning (.removing i) → ∀ b j, (s.agents b).guards ≠ some j) :
    (s.set a x e).Inv := by
  generalize hy : s.agents a = y at he hclean
  cases he with
  | same _ _ file holds guards =>
    -- who comes to guard an inode has locked it and sees it named
    rw [← hy] at file holds guards
    refine h.set h.wf (Nat.le_refl _) ?_ ?_ ?_ (fun b j _ => h.held b j) (fun b j _ => h.named b j)
    · intro i hi
      rcases file i hi with hi | hname
      · exact h.opened a i hi
      · have hnewest := h.wf.newest i hname
        omega
    · exact fun i hi => h.held a i (holds i hi).1
    · intro i hi
      rcases guards i hi with hi | ⟨-, hname⟩
      · exact h.named a i hi
      · exact hname
  | create size tries unnamed =>
    -- the path named nothing, so nobody guarded an inode
    have hwf := h.wf.openOrCreate
    rcases s.entry.openOrCreate_cases with ⟨i, hname, -⟩ | ⟨-, heq⟩
    · rw [unnamed] at hname
      cases hname
    · rw [heq] at hwf
      refine h.set hwf (Nat.le_succ _) ?_ (by rintro i ⟨⟩) (by rintro i ⟨⟩) ?_ ?_
      · rintro i ⟨⟩
        exact Nat.lt_succ_self _
      · exact fun b i _ hi => h.held b i hi
      · intro b i _ hi
        rw [h.named b i hi] at unnamed
        cases unnamed
  | lock _ _ i who free =>
    -- the lock was free, so it was nobody else's
    have hfile : (s.agents a).file = some i := by
      rw [hy]
      cases who <;> rfl
    have hfile' : x.file = some i := by cases who <;> rfl
    have hguards : x.guards = none := by cases who <;> rfl
    have hlt := h.opened a i hfile
    refine h.set (h.wf.tryLock hlt (Entry.tryLock_eq_some.mpr ⟨free, rfl⟩)) (Nat.le_refl _)
      ?_ ?_ ?_ ?_ ?_
    · intro j hj
      rw [hfile'] at hj
      cases hj
      exact hlt
    · intro j hj
      have hj' := Agent.file_of_holds hj
      rw [hfile'] at hj'
      cases hj'
      exact Function.update_self ..
    · rw [hguards]
      rintro j ⟨⟩
    · intro b j _ hj
      have hheld := h.held b j hj
      have hne : j ≠ i := by
        rintro rfl
        rw [free] at hheld
        cases hheld
      simp only [Function.update_of_ne hne]
      exact hheld
    · exact fun b j _ hj => h.named b j hj
  | release _ _ i file holds unlocked =>
    rw [← hy] at file
    have hguards : x.guards = none := by
      cases hg : x.guards with
      | none => rfl
      | some j =>
        rw [Agent.holds_of_guards hg] at holds
        cases holds
    refine h.set (h.wf.release a i) (Nat.le_of_eq (Entry.release_count _ _ _).symm) ?_ ?_ ?_ ?_ ?_
    · intro j hj
      rw [Entry.release_count]
      exact h.opened a j (file j hj)
    · rw [holds]
      rintro j ⟨⟩
    · rw [hguards]
      rintro j ⟨⟩
    · exact fun b j hne hj => Entry.release_holder_of_ne hne (h.held b j hj) i
    · intro b j _ hj
      rw [Entry.release_name]
      exact h.named b j hj
  | unlink _ _ i who =>
    -- the one who unlinks guards the inode, and nobody else does
    have hguard : (s.agents a).guards = some i := by
      rw [hy]
      cases who <;> rfl
    have hfile' : x.file = some i := by cases who <;> rfl
    have hguards' : x.guards = none := by cases who <;> rfl
    have hholds := Agent.holds_of_guards hguard
    refine h.unlink (i := i) ?_ ?_ hguards' ?_
    · intro j hj
      rw [hfile'] at hj
      cases hj
      exact ⟨rfl, h.opened a i (Agent.file_of_holds hholds)⟩
    · intro j hj
      have hj' := Agent.file_of_holds hj
      rw [hfile'] at hj'
      cases hj'
      exact hholds
    · exact fun b j hne hj => hne (h.guard_unique hj hguard).1
  | remove i =>
    exact h.unlink (i := i) (by rintro j ⟨⟩) (by rintro j ⟨⟩) rfl fun b j _ => hclean i rfl b j
  | resize size i =>
    have hguard : (s.agents a).guards = some i := by
      rw [hy]
      rfl
    have hholds := Agent.holds_of_guards hguard
    refine h.set (h.wf.setLen i size) (Nat.le_refl _) ?_ ?_ ?_ (fun b j _ => h.held b j)
      (fun b j _ => h.named b j)
    · rintro j ⟨⟩
      exact h.opened a i (Agent.file_of_holds hholds)
    · rintro j ⟨⟩
      exact h.held a i hholds
    · rintro j ⟨⟩
      exact h.named a i hguard

/-! ## Runs without `ringfire clean` -/

/-- Nobody is inside `ringfire clean`. -/
def NoCleaner (s : Files η) : Prop := ∀ a, (s.agents a).role ≠ .cleaner

omit [DecidableEq η] in
theorem NoCleaner.not_removing (h : s.NoCleaner) (a : η) (i : ℕ) :
    s.agents a ≠ .cleaning (.removing i) := by
  intro heq
  apply h a
  rw [heq]
  rfl

theorem stepCreate_role (size : ℕ) (pc : CreatePc) :
    (Agent.stepCreate e a size pc).1.role ≠ .cleaner := by
  unfold Agent.stepCreate
  split
  all_goals try split
  all_goals try split
  all_goals rintro ⟨⟩

omit [DecidableEq η] in
theorem stepAdopt_role (good : Bool) (pc : AdoptPc) :
    (Agent.stepAdopt e a good pc).1.role ≠ .cleaner := by
  unfold Agent.stepAdopt
  split
  all_goals try split
  all_goals rintro ⟨⟩

theorem NoCleaner.set (h : s.NoCleaner) (hx : x.role ≠ .cleaner) : (s.set a x e).NoCleaner := by
  intro b
  rcases eq_or_ne b a with rfl | hne
  · rwa [set_agents_self]
  · rw [set_agents_of_ne hne]
    exact h b

theorem NoCleaner.step (h : s.NoCleaner) {l : FilesLabel η} (hl : ∀ a, l ≠ .call a .clean)
    (hs : s.step l = some s') : s'.NoCleaner := by
  cases l with
  | call a what =>
    simp only [Files.step] at hs
    split_ifs at hs
    cases hs
    apply h.set
    cases what with
    | create size => rintro ⟨⟩
    | clean => exact absurd rfl (hl a)
    | adopt => rintro ⟨⟩
  | act a good =>
    obtain ⟨⟨x, e⟩, hx, rfl⟩ := Option.map_eq_some_iff.mp hs
    apply h.set
    -- no routine turns into a cleaner
    have ha := h a
    generalize s.agents a = y at hx ha
    cases y with
    | creating size pc =>
      have hrole := stepCreate_role (e := s.entry) (a := a) size pc
      rwa [Option.some.inj hx] at hrole
    | cleaning pc => exact absurd rfl ha
    | adopting pc =>
      have hrole := stepAdopt_role (e := s.entry) (a := a) good pc
      rwa [Option.some.inj hx] at hrole
    | unlinking i =>
      cases hx
      rintro ⟨⟩
    | closing i =>
      cases hx
      rintro ⟨⟩
    | idle | live | adopted | ended => cases hx
  | fail a =>
    simp only [Files.step] at hs
    split at hs
    case h_4 => cases hs
    all_goals
      cases hs
      apply h.set
      unfold Agent.leave
      split <;> rintro ⟨⟩
  | drop a unlinkOnDrop =>
    obtain ⟨x, hx, rfl⟩ := Option.map_eq_some_iff.mp hs
    apply h.set
    generalize s.agents a = y at hx
    unfold Agent.drop at hx
    split at hx
    · split_ifs at hx
      · cases hx
        rintro ⟨⟩
      · cases hx
        rintro ⟨⟩
    · cases hx
      rintro ⟨⟩
    · cases hx
  | die a =>
    cases hs
    apply h.set
    rintro ⟨⟩

/-- The invariant holds in every run without `ringfire clean`. -/
theorem Inv.run {ls : List (FilesLabel η)} (he : e.Wf) (hls : ∀ l ∈ ls, ∀ a, l ≠ .call a .clean)
    (hrun : Transition.run Files.step (init e) ls = some s) : s.Inv ∧ s.NoCleaner := by
  refine Transition.run_invariant (P := fun s => s.Inv ∧ s.NoCleaner)
    (Q := fun l => ∀ a, l ≠ .call a .clean) (fun hl h hs => ?_) hls
    ⟨init_inv he, by rintro a ⟨⟩⟩ hrun
  obtain ⟨x, e', rfl, heffect⟩ := step_effect hs
  refine ⟨h.1.effect heffect fun i hi => ?_, h.2.step hl hs⟩
  -- only `ringfire clean` unlinks a path without its lock
  exact absurd hi (h.2.not_removing _ i)

omit [DecidableEq η] in
theorem Inv.live (h : s.Inv) {i : ℕ} (ha : s.agents a = .live i) :
    s.entry.name = some i ∧ s.entry.holder i = some a :=
  ⟨h.named a i (by rw [ha]; rfl), h.held a i (by rw [ha]; rfl)⟩

/-- No system call of a creator unlinks the path of a live producer or resizes its file. -/
theorem Inv.create_spares (h : s.Inv) {good : Bool} {size : ℕ} {pc : CreatePc}
    (ha : s.agents a = .creating size pc) (hs : s.step (.act a good) = some s') {b : η} {i : ℕ}
    (hb : s.agents b = .live i) :
    s'.entry.name = some i ∧ s'.entry.len i = s.entry.len i := by
  obtain ⟨hname, -⟩ := h.live hb
  have hguard : (s.agents b).guards = some i := by rw [hb]; rfl
  -- a creator that guards an inode would be the producer
  have hfree : (s.agents a).guards = none := by
    cases hg : (s.agents a).guards with
    | none => rfl
    | some j =>
      obtain ⟨rfl, -⟩ := h.guard_unique hg hguard
      rw [ha] at hb
      cases hb
  obtain ⟨x, e', rfl, he⟩ := step_effect hs
  simp only [FilesLabel.agent] at he
  rw [ha] at he hfree
  cases he with
  | same => exact ⟨hname, rfl⟩
  | create size tries unnamed =>
    rw [hname] at unnamed
    cases unnamed
  | lock => exact ⟨hname, rfl⟩
  | release _ _ j => exact ⟨by simpa using hname, by simp⟩
  | unlink _ _ j who =>
    cases who with
    | create => cases hfree
  | resize size j => cases hfree

end Files

/-- **One live producer per path.** However calls of `create_backing_file`, drops of the producers
they were for, calls of `adopt` and deaths are interleaved, one system call at a time: there is at
most one live producer, the path names its inode and it holds the lock of it, and no system call of
a creator unlinks the path of a live producer or changes the length of its file. -/
theorem one_live_producer {η : Type} [DecidableEq η] {e : Entry η} (he : e.Wf)
    {ls : List (FilesLabel η)} (hls : ∀ l ∈ ls, ∀ a, l ≠ .call a .clean) {s : Files η}
    (hrun : Transition.run Files.step (.init e) ls = some s) :
    (∀ a b i j, s.agents a = .live i → s.agents b = .live j → a = b) ∧
    (∀ a i, s.agents a = .live i → s.entry.name = some i ∧ s.entry.holder i = some a) ∧
    ∀ a good size pc s', s.agents a = .creating size pc → s.step (.act a good) = some s' →
      ∀ b i, s.agents b = .live i →
        s'.entry.name = some i ∧ s'.entry.len i = s.entry.len i := by
  obtain ⟨hinv, -⟩ := Files.Inv.run he hls hrun
  refine ⟨fun a b i j ha hb => ?_, fun a i ha => hinv.live ha, ?_⟩
  · exact (hinv.guard_unique (i := i) (j := j) (by rw [ha]; rfl) (by rw [hb]; rfl)).1
  · exact fun a good size pc s' ha hs b i hb => hinv.create_spares ha hs hb

/-- A file that a producer left behind when it died. -/
def staleEntry : Entry Bool := ⟨some 0, 1, fun _ => 128, fun _ => none⟩

theorem staleEntry_wf : staleEntry.Wf := by
  refine ⟨?_, fun _ _ => rfl⟩
  rintro i ⟨⟩
  rfl

/-- The stale file is replaced, and a second creator opens the new one. -/
def replaces : List (FilesLabel Bool) :=
  .call true (.create 256) :: List.replicate 11 (.act true true) ++
    [.call false (.create 512), .act false true]

/-- The new file has its producer, and the second creator does not get its lock. -/
theorem one_live_producer_replaced :
    ∃ s : Files Bool, Transition.run Files.step (.init staleEntry) replaces = some s ∧
      s.agents true = .live 1 ∧ s.agents false = .creating 512 (.locking 7 1) ∧
      s.entry.name = some 1 ∧ s.entry.holder 1 = some true := by
  obtain ⟨s, hrun, htrue, hfalse⟩ : ∃ s : Files Bool,
      Transition.run Files.step (.init staleEntry) replaces = some s ∧
        s.agents true = .live 1 ∧ s.agents false = .creating 512 (.locking 7 1) :=
    ⟨_, rfl, rfl, rfl⟩
  have hclean : ∀ l ∈ replaces, ∀ a, l ≠ .call a .clean := by decide
  obtain ⟨-, hlive, -⟩ := one_live_producer staleEntry_wf hclean hrun
  exact ⟨s, hrun, htrue, hfalse, hlive true 1 htrue⟩

end Ringfire
