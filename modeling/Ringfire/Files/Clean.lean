import Mathlib.Data.Fintype.Basic
import Ringfire.Files.Create

/-!
# Cleaning up

`ringfire clean` takes the lock of a file to see that no producer has it, gives the lock up again,
and then removes the file by its path. Between these steps a creator can take the path over, so what
is removed may be the ring of a live producer.

## Main definitions

* `Files.Careful`: no creator comes in between
* `Files.Free`: no creator and no producer has locked the inode that the path names

## Main results

* `clean_spares_live`: in runs in which no creator comes in between, no live producer loses its path
* `clean_removes_live`: and in others one may
-/

namespace Ringfire

open DirectoryEntry

namespace Agent

/-- The inode whose lock a creator is about to ask for. -/
def asksFor : Agent → Option ℕ
  | creating _ (.locking _ i) => some i
  | _ => none

/-- The inode whose lock `ringfire clean` is about to give up. -/
def givesUp : Agent → Option ℕ
  | cleaning (.unlocking i) => some i
  | _ => none

theorem givesUp_ne_some {x : Agent} {i : ℕ} (h : x.asksFor = some i) (j : ℕ) :
    x.givesUp ≠ some j := by
  unfold asksFor at h
  split at h
  · rintro ⟨⟩
  · cases h

end Agent

namespace Files

variable {η : Type} {s s' : Files η} {a : η} {x : Agent} {e : Entry η}

/-- No creator comes in between: when `ringfire clean` gives up its lock, the path names the inode
it has locked or none; and until it removes the file no creator gets the lock of the inode that the
path names. -/
def Careful (s : Files η) : FilesLabel η → Prop
  | .act a _ =>
    (∀ i ∈ (s.agents a).givesUp, s.entry.name = some i ∨ s.entry.name = none) ∧
      ∀ i ∈ (s.agents a).asksFor, s.entry.name = some i → s.entry.holder i = none →
        ∀ c, (s.agents c).unlocked = false
  | .call _ _ | .fail _ | .drop _ _ | .die _ => True

instance [Fintype η] [DecidableEq η] (s : Files η) (l : FilesLabel η) : Decidable (s.Careful l) :=
  match l with
  | .act _ _ => inferInstanceAs (Decidable (_ ∧ _))
  | .call _ _ | .fail _ | .drop _ _ | .die _ => .isTrue trivial

/-- No creator and no producer has locked the inode that the path names. -/
def Free (s : Files η) : Prop :=
  ∀ a i, (s.agents a).role = .producer → (s.agents a).holds = some i → s.entry.name ≠ some i

/-- While somebody is about to remove the file by its path, the path is free. -/
structure CleanInv (s : Files η) : Prop extends s.Inv where
  spared : ∀ c, (s.agents c).unlocked = true → s.Free

/-- Nobody guards an inode while the path is free. -/
theorem Free.not_guards (hfree : s.Free) (h : s.Inv) (a : η) (i : ℕ) :
    (s.agents a).guards ≠ some i := by
  intro hg
  exact hfree a i (Agent.role_of_guards hg) (Agent.holds_of_guards hg) (h.named a i hg)

variable [DecidableEq η]

/-- A path that is free stays so when it goes on to name the inode it named or none, and a creator
that moved has not locked the inode it names. -/
theorem Free.set (hfree : s.Free) (hname : ∀ i, e.name = some i → s.entry.name = some i)
    (hx : ∀ i, x.role = .producer → x.holds = some i → e.name ≠ some i) : (s.set a x e).Free := by
  intro b i
  rcases eq_or_ne b a with rfl | hne
  · rw [set_agents_self]
    exact hx i
  · rw [set_agents_of_ne hne]
    exact fun hrole hi hn => hfree b i hrole hi (hname i hn)

/-- A path that is free stays free, unless a creator locks the inode it names. -/
theorem Free.effect (hfree : s.Free) (h : s.Inv)
    (he : Agent.Effect s.entry a (s.agents a) x e)
    (hlock : ∀ i, (s.agents a).asksFor = some i → s.entry.holder i = none →
      s.entry.name ≠ some i) : (s.set a x e).Free := by
  generalize hy : s.agents a = y at he hlock
  cases he with
  | same _ _ file holds =>
    refine hfree.set (fun _ hn => hn) fun i hrole hi => ?_
    obtain ⟨hi', hrole'⟩ := holds i hi
    rw [hrole', ← hy] at hrole
    rw [← hy] at hi'
    exact hfree a i hrole hi'
  | create size tries unnamed =>
    -- nobody has opened the new inode
    intro b i hrole hi hn
    rcases eq_or_ne b a with rfl | hne
    · rw [set_agents_self] at hi
      cases hi
    · rw [set_agents_of_ne hne] at hi
      have hlt := h.opened b i (Agent.file_of_holds hi)
      cases hn
      exact Nat.lt_irrefl _ hlt
  | lock _ _ i who free =>
    refine hfree.set (fun _ hn => hn) fun j hrole hj => ?_
    cases who with
    | create size tries =>
      cases hj
      exact hlock i rfl free
    -- `ringfire clean` and `adopt` lock for themselves, which leaves the path free of producers
    | clean => cases hrole
    | adopt => cases hrole
  | release _ _ i file holds =>
    refine hfree.set (fun j hn => ?_) fun j _ hj => ?_
    · rwa [Entry.release_name] at hn
    · rw [holds] at hj
      cases hj
  | unlink => exact hfree.set (by rintro i ⟨⟩) (by rintro i - - ⟨⟩)
  | remove => exact hfree.set (by rintro i ⟨⟩) (by rintro i - - ⟨⟩)
  | resize size i =>
    refine hfree.set (fun _ hn => hn) fun j hrole hj => ?_
    cases hj
    exact hfree a i (by rw [hy]; rfl) (by rw [hy]; rfl)

/-- A step that is no system call locks nothing and does not touch the path. -/
theorem step_other {l : FilesLabel η} (hl : ∀ a good, l ≠ .act a good)
    (hs : s.step l = some s') :
    ∃ x e, s' = s.set l.agent x e ∧ e.name = s.entry.name ∧ x.unlocked = false ∧
      ∀ i, x.holds = some i →
        (s.agents l.agent).holds = some i ∧ x.role = (s.agents l.agent).role := by
  cases l with
  | act a good => exact absurd rfl (hl a good)
  | call a what =>
    simp only [Files.step] at hs
    split_ifs at hs
    cases hs
    refine ⟨_, _, rfl, rfl, ?_⟩
    cases what <;> exact ⟨rfl, by rintro i ⟨⟩⟩
  | fail a =>
    have hleave : (s.agents a).leave.unlocked = false ∧ (s.agents a).leave.holds = none := by
      unfold Agent.leave
      split <;> exact ⟨rfl, rfl⟩
    simp only [Files.step] at hs
    split at hs
    case h_4 => cases hs
    all_goals
      cases hs
      refine ⟨_, _, rfl, rfl, hleave.1, fun i hi => ?_⟩
      rw [hleave.2] at hi
      cases hi
  | drop a unlinkOnDrop =>
    obtain ⟨x, hx, rfl⟩ := Option.map_eq_some_iff.mp hs
    refine ⟨x, _, rfl, rfl, ?_⟩
    simp only [FilesLabel.agent]
    generalize s.agents a = y at hx
    unfold Agent.drop at hx
    split at hx
    · split_ifs at hx
      · cases hx
        exact ⟨rfl, fun i hi => ⟨hi, rfl⟩⟩
      · cases hx
        exact ⟨rfl, by rintro i ⟨⟩⟩
    · cases hx
      exact ⟨rfl, by rintro i ⟨⟩⟩
    · cases hx
  | die a =>
    cases hs
    refine ⟨_, _, rfl, ?_, rfl, by rintro i ⟨⟩⟩
    cases (s.agents a).file with
    | none => rfl
    | some i => exact Entry.release_name _ _ _

/-- Whoever is about to remove the file after a system call was so before, or gives up its lock. -/
theorem unlocked_before (he : Agent.Effect s.entry a (s.agents a) x e) (hx : x.unlocked = true) :
    (s.agents a).unlocked = true ∨
      ∃ i, (s.agents a).givesUp = some i ∧ (s.agents a).holds = some i := by
  generalize s.agents a = y at he
  cases he with
  | same _ _ _ _ _ unlocked =>
    rw [unlocked] at hx
    cases hx
  | release _ _ i file holds unlocked =>
    rcases unlocked hx with h | rfl
    · exact .inl h
    · exact .inr ⟨i, rfl, rfl⟩
  | lock _ _ _ who => cases who <;> cases hx
  | unlink _ _ _ who => cases who <;> cases hx
  | create | remove | resize => cases hx

omit [DecidableEq η] in
/-- When `ringfire clean` gives up the lock of the inode that the path names, or the path names
none, the path is free. -/
theorem Inv.free_of_givesUp (h : s.Inv) {c : η} {i : ℕ} (hup : (s.agents c).givesUp = some i)
    (hholds : (s.agents c).holds = some i)
    (hname : s.entry.name = some i ∨ s.entry.name = none) : s.Free := by
  intro a j hrole hj hn
  rcases hname with hname | hname
  · -- a producer that had locked it would be the cleaner itself
    rw [hname] at hn
    cases hn
    obtain rfl := h.holder_unique hj hholds
    generalize s.agents a = y at hrole hup
    unfold Agent.givesUp at hup
    split at hup
    · cases hrole
    · cases hup
  · rw [hname] at hn
    cases hn

/-- If somebody is about to remove the file after a careful step, the path was free before it. -/
theorem CleanInv.free_before (h : s.CleanInv) {l : FilesLabel η} (hl : s.Careful l)
    (hs : s.step l = some s') {c : η} (hc : (s'.agents c).unlocked = true) : s.Free := by
  by_cases hact : ∃ a good, l = .act a good
  · obtain ⟨a, good, rfl⟩ := hact
    obtain ⟨x, e, rfl, he⟩ := step_effect hs
    rcases eq_or_ne c a with rfl | hne
    · rw [FilesLabel.agent, set_agents_self] at hc
      rcases unlocked_before he hc with hc | ⟨i, hup, hholds⟩
      · exact h.spared c hc
      · exact h.toInv.free_of_givesUp hup hholds (hl.1 i hup)
    · rw [FilesLabel.agent, set_agents_of_ne hne] at hc
      exact h.spared c hc
  · obtain ⟨x, e, rfl, -, hx, -⟩ := step_other (fun a good heq => hact ⟨a, good, heq⟩) hs
    rcases eq_or_ne c l.agent with rfl | hne
    · rw [set_agents_self, hx] at hc
      cases hc
    · rw [set_agents_of_ne hne] at hc
      exact h.spared c hc

/-- A careful step leaves a path free that was free before and that somebody is about to unlink. -/
theorem Free.step (hfree : s.Free) (h : s.Inv) {l : FilesLabel η} (hl : s.Careful l)
    (hs : s.step l = some s') {c : η} (hc : (s'.agents c).unlocked = true) : s'.Free := by
  by_cases hact : ∃ a good, l = .act a good
  · obtain ⟨a, good, rfl⟩ := hact
    obtain ⟨x, e, rfl, he⟩ := step_effect hs
    refine hfree.effect h he fun i hi hnone hname => ?_
    have hc' := hl.2 i hi hname hnone c
    rcases eq_or_ne c a with rfl | hne
    · -- a creator that asks for a lock does not go on to remove the file
      rw [FilesLabel.agent, set_agents_self] at hc
      rcases unlocked_before he hc with hc | ⟨j, hup, -⟩
      · rw [FilesLabel.agent, hc'] at hc
        cases hc
      · exact Agent.givesUp_ne_some hi j hup
    · rw [FilesLabel.agent, set_agents_of_ne hne, hc'] at hc
      cases hc
  · obtain ⟨x, e, rfl, hname, -, hholds⟩ := step_other (fun a good heq => hact ⟨a, good, heq⟩) hs
    refine hfree.set (fun i hn => hname ▸ hn) fun i hrole hi => ?_
    obtain ⟨hi', hrole'⟩ := hholds i hi
    rw [hname]
    exact hfree l.agent i (hrole' ▸ hrole) hi'

/-- A careful step keeps the invariant, also when it removes the file. -/
theorem CleanInv.step (h : s.CleanInv) {l : FilesLabel η} (hl : s.Careful l)
    (hs : s.step l = some s') : s'.CleanInv := by
  refine ⟨?_, fun c hc => (h.free_before hl hs hc).step h.toInv hl hs hc⟩
  obtain ⟨x, e, rfl, he⟩ := step_effect hs
  refine h.toInv.effect he fun i hi b j => ?_
  -- the one who removes the file has given up its lock before
  have hfree := h.spared l.agent (by rw [hi]; rfl)
  exact hfree.not_guards h.toInv b j

theorem CleanInv.reaches {e : Entry η} (he : e.Wf)
    (h : Transition.ReachesBy Careful Files.step (init e) s) : s.CleanInv :=
  h.invariant (fun hinv hl hs => hinv.step hl hs) ⟨init_inv he, by rintro c ⟨⟩⟩

end Files

/-- **Cleaning removes no live ring as long as no creator comes in between.** In every run of
creators, drops, `ringfire clean`, mirrors that adopt and deaths in which, between the moment when
`ringfire clean` gives up its lock and its removal of the file, no creator gets the lock of the
inode that the path names, and in which the path was not replaced before: what `ringfire clean`
unlinks is locked by no live producer, and every live producer keeps its path. -/
theorem clean_spares_live {η : Type} [DecidableEq η] {e : Entry η} (he : e.Wf) {s : Files η}
    (h : Transition.ReachesBy Files.Careful Files.step (.init e) s) :
    (∀ a i, s.agents a = .live i → s.entry.name = some i ∧ s.entry.holder i = some a) ∧
    ∀ c i, s.agents c = .cleaning (.removing i) →
      ∀ j a k, s.entry.name = some j → s.agents a = .live k → s.entry.holder j ≠ some a := by
  have hinv := Files.CleanInv.reaches he h
  refine ⟨fun a i ha => hinv.toInv.live ha, fun c i hc j a k _ ha _ => ?_⟩
  have hfree := hinv.spared c (by rw [hc]; rfl)
  exact hfree.not_guards hinv.toInv a k (by rw [ha]; rfl)

/-- `ringfire clean` removes a file that was left behind, and then a producer creates its ring. -/
def cleansFirst : List (FilesLabel Bool) :=
  .call false .clean :: List.replicate 7 (.act false true) ++
    .call true (.create 256) :: List.replicate 5 (.act true true)

theorem clean_spares_live_first :
    ∃ s : Files Bool,
      Transition.ReachesBy Files.Careful Files.step (.init staleEntry) s ∧
      s.agents true = .live 1 ∧ s.agents false = .ended ∧
      s.entry.name = some 1 ∧ s.entry.holder 1 = some true := by
  obtain ⟨s, hrun, htrue, hfalse⟩ : ∃ s : Files Bool,
      Transition.run (Transition.guarded Files.Careful Files.step) (.init staleEntry) cleansFirst =
          some s ∧ s.agents true = .live 1 ∧ s.agents false = .ended :=
    ⟨_, rfl, rfl, rfl⟩
  have hreach : Transition.ReachesBy Files.Careful Files.step (.init staleEntry) s :=
    .of_run cleansFirst .refl hrun
  obtain ⟨hlive, -⟩ := clean_spares_live staleEntry_wf hreach
  exact ⟨s, hreach, htrue, hfalse, hlive true 1 htrue⟩

/-- `ringfire clean` has given up its lock, and a producer takes the path over. -/
def cleansLate : List (FilesLabel Bool) :=
  .call false .clean :: List.replicate 6 (.act false true) ++
    .call true (.create 256) :: List.replicate 11 (.act true true)

/-- What is removed then is the ring of the live producer, which holds its lock, and no path leads
to it any more. -/
theorem clean_removes_live :
    ∃ s s' : Files Bool, Transition.run Files.step (.init staleEntry) cleansLate = some s ∧
      s.agents false = .cleaning (.removing 0) ∧ s.agents true = .live 1 ∧
      s.entry.name = some 1 ∧ s.entry.holder 1 = some true ∧
      s.step (.act false true) = some s' ∧ s'.agents true = .live 1 ∧ s'.entry.name = none :=
  ⟨_, _, rfl, rfl, rfl, rfl, rfl, rfl, rfl, rfl⟩

end Ringfire
