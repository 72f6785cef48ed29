import Ringfire.Foundation.Transition
import Mathlib.Logic.Function.Basic

/-!
# Observers of a system

A system that anybody may read and nobody else writes: observers stand beside it, each takes
steps of its own that depend on the state of the system, and none of them changes it. What holds
of the system alone still holds beside observers, and what holds of one observer needs to be
proved against the system's own steps only.

## Main definitions

* `Observed`: the system and its observers
* `Observed.step`: a step of the system, or of one observer
* `Observed.Kept`: a property of the system and one observer that both keep

## Main results

* `Observed.reaches_base`: the observers leave no trace in the system
* `Observed.invariant`: a kept property holds of every observer in every reachable state
* `Observed.since`: a kept relation between two moments holds between any two moments
-/

namespace Transition

/-- A system and its observers. -/
structure Observed (κ σ θ : Type*) where
  base : σ
  observer : κ → θ

/-- Who moves. -/
inductive ObservedLabel (κ ι α : Type*) where
  | base (l : ι)
  | observer (k : κ) (a : α)

namespace Observed

variable {κ σ θ ι α : Type*} [DecidableEq κ] {move : σ → ι → Option σ}
  {look : σ → θ → α → Option θ}

/-- One step of the system, or of one observer in the system it sees. -/
def step (move : σ → ι → Option σ) (look : σ → θ → α → Option θ) (s : Observed κ σ θ) :
    ObservedLabel κ ι α → Option (Observed κ σ θ)
  | .base l => (move s.base l).map fun b => { s with base := b }
  | .observer k a =>
    (look s.base (s.observer k) a).map fun x =>
      { s with observer := Function.update s.observer k x }

/-- A step of the system leaves the observers, a step of an observer leaves everything else. -/
theorem step_cases {s s' : Observed κ σ θ} {l : ObservedLabel κ ι α}
    (h : s.step move look l = some s') :
    (∃ b l', l = .base l' ∧ move s.base l' = some b ∧ s' = { s with base := b }) ∨
      ∃ k a x, l = .observer k a ∧ look s.base (s.observer k) a = some x ∧
        s' = { s with observer := Function.update s.observer k x } := by
  cases l with
  | base l =>
    obtain ⟨b, hb, rfl⟩ := Option.map_eq_some_iff.mp h
    exact .inl ⟨b, l, rfl, hb, rfl⟩
  | observer k a =>
    obtain ⟨x, hx, rfl⟩ := Option.map_eq_some_iff.mp h
    exact .inr ⟨k, a, x, rfl, hx, rfl⟩

/-- **The observers leave no trace.** The system reaches what it reaches without them. -/
theorem reaches_base {s t : Observed κ σ θ} (h : Reaches (Observed.step move look) s t) :
    Reaches move s.base t.base := by
  refine h.invariant (P := fun u => Reaches move s.base u.base) (fun hu hstep => ?_) (.refl _)
  rcases step_cases hstep with ⟨b, l, -, hb, rfl⟩ | ⟨k, a, x, -, -, rfl⟩
  · exact hu.trans (.single hb)
  · exact hu

/-- A property of the system and one observer that the steps of either keep, as long as the
system satisfies `I`. -/
structure Kept (I : σ → Prop) (move : σ → ι → Option σ) (look : σ → θ → α → Option θ)
    (Q : α → Prop) (J : σ → θ → Prop) : Prop where
  base : ∀ {b b' : σ} {l : ι} {x : θ}, I b → J b x → move b l = some b' → J b' x
  look : ∀ {b : σ} {a : α} {x x' : θ}, Q a → I b → J b x → look b x a = some x' → J b x'

variable {I : σ → Prop} {J : σ → θ → Prop} {Q : α → Prop} {s t : Observed κ σ θ}

/-- The labels of observer `k` are among `Q`. -/
def OfObserver (k : κ) (Q : α → Prop) (l : ObservedLabel κ ι α) : Prop :=
  ∀ a, l = .observer k a → Q a

/-- A step keeps what observer `k` keeps. -/
theorem Kept.step (h : Kept I move look Q J) {k : κ} {l : ObservedLabel κ ι α}
    (hl : OfObserver k Q l) (hI : I s.base) (hJ : J s.base (s.observer k))
    (hstep : s.step move look l = some t) : J t.base (t.observer k) := by
  rcases step_cases hstep with ⟨b, l', -, hb, rfl⟩ | ⟨k', a, x, rfl, hx, rfl⟩
  · exact h.base hI hJ hb
  · rcases eq_or_ne k k' with rfl | hne
    · simp only [Function.update_self]
      exact h.look (hl a rfl) hI hJ hx
    · simp only [Function.update_of_ne hne]
      exact hJ

/-- **A kept relation holds over every run**: of one observer, between the start of the run and
its end. -/
theorem Kept.since (h : Kept I move look Q J)
    (hI : ∀ {b b' : σ} {l : ι}, I b → move b l = some b' → I b') {k : κ}
    {as : List (ObservedLabel κ ι α)} (has : ∀ l ∈ as, OfObserver k Q l) (hs : I s.base)
    (hJ : J s.base (s.observer k)) (hrun : run (Observed.step move look) s as = some t) :
    I t.base ∧ J t.base (t.observer k) := by
  refine run_invariant (P := fun u => I u.base ∧ J u.base (u.observer k))
    (fun {u l u'} hl hu hstep => ⟨?_, h.step hl hu.1 hu.2 hstep⟩) has ⟨hs, hJ⟩ hrun
  rcases step_cases hstep with ⟨b, l', -, hb, rfl⟩ | ⟨k', a, x, -, -, rfl⟩
  · exact hI hu.1 hb
  · exact hu.1

/-- **The invariant rule for observers.** What every observer satisfies at the start and a step
keeps, it satisfies in every reachable state. -/
theorem Kept.invariant (h : Kept I move look (fun _ => True) J)
    (hI : ∀ {b b' : σ} {l : ι}, I b → move b l = some b' → I b') (hs : I s.base)
    (hJ : ∀ k, J s.base (s.observer k)) (hreach : Reaches (Observed.step move look) s t) :
    I t.base ∧ ∀ k, J t.base (t.observer k) := by
  obtain ⟨as, hrun⟩ := hreach
  refine ⟨?_, fun k => (h.since hI (fun l _ a _ => trivial) hs (hJ k) hrun).2⟩
  obtain ⟨bs, hbs⟩ := reaches_base ⟨as, hrun⟩
  exact run_invariant (Q := fun _ => True) (fun _ hb hstep => hI hb hstep) (fun _ _ => trivial)
    hs hbs

end Observed

end Transition
