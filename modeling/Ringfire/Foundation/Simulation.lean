import Mathlib.Algebra.Ring.Nat
import Ringfire.Foundation.Transition

/-!
# Simulations

One system simulates another when each step of the other is matched by some steps of its own that
lead to related states. Then whole runs are matched. What a system cannot put off for ever, it does
in the end.

## Main results

* `run_flatMap_of_simulates`: runs are matched label by label
* `reaches_of_simulates`: what the one reaches is related to something the other reaches
* `run_meets`: a run that lessens a measure until it meets its goal is short, or has met it
* `reaches_meets`: there is a run that meets it
* `run_amortized`: what a run spends is covered by what it earns
-/

namespace Transition

variable {σ τ ι κ : Type*} {step : σ → ι → Option σ} {step' : τ → κ → Option τ} {R : σ → τ → Prop}

/-- **Runs are matched label by label**: the matching run takes for each label the labels `f`
gives for it. -/
theorem run_flatMap_of_simulates {Q : ι → Prop} {f : ι → List κ}
    (hstep : ∀ {s a s' t}, Q a → R s t → step s a = some s' →
      ∃ t', run step' t (f a) = some t' ∧ R s' t') :
    ∀ {as : List ι} {s s' : σ} {t : τ}, (∀ a ∈ as, Q a) → R s t → run step s as = some s' →
      ∃ t', run step' t (as.flatMap f) = some t' ∧ R s' t' := by
  intro as
  induction as with
  | nil =>
    intro s s' t _ hR hrun
    cases hrun
    exact ⟨t, rfl, hR⟩
  | cons a as ih =>
    intro s s' t hQ hR hrun
    obtain ⟨u, hu, hrest⟩ := run_cons_eq_some.mp hrun
    obtain ⟨v, hv, hR'⟩ := hstep (hQ a List.mem_cons_self) hR hu
    obtain ⟨t', ht', hR''⟩ := ih (fun b hb => hQ b (List.mem_cons_of_mem a hb)) hR' hrest
    refine ⟨t', ?_, hR''⟩
    rw [List.flatMap_cons, run_append]
    exact ⟨v, hv, ht'⟩

/-- **What the one reaches is related to something the other reaches.** -/
theorem reaches_of_simulates
    (hstep : ∀ {s a s' t}, R s t → step s a = some s' → ∃ t', Reaches step' t t' ∧ R s' t')
    {s s' : σ} {t : τ} (hR : R s t) (h : Reaches step s s') :
    ∃ t', Reaches step' t t' ∧ R s' t' := by
  refine h.invariant (P := fun u => ∃ t', Reaches step' t t' ∧ R u t') ?_ ⟨t, .refl t, hR⟩
  rintro u a u' ⟨t', ht', hR'⟩ hu
  obtain ⟨t'', ht'', hR''⟩ := hstep hR' hu
  exact ⟨t'', ht'.trans ht'', hR''⟩

/-- **A run whose steps lessen `μ` until one of them meets the goal** is no longer than `μ` was, or
has met it on the way. -/
theorem run_meets {P G : σ → Prop} {Q : ι → Prop} {μ : σ → ℕ}
    (hstep : ∀ {s a s'}, Q a → P s → step s a = some s' → G s' ∨ P s' ∧ μ s' < μ s) :
    ∀ {as : List ι} {s s' : σ}, (∀ a ∈ as, Q a) → P s → run step s as = some s' →
      (∃ before, before <+: as ∧ ∃ u, run step s before = some u ∧ G u) ∨
        P s' ∧ as.length + μ s' ≤ μ s := by
  intro as
  induction as with
  | nil =>
    intro s s' _ hP hrun
    cases hrun
    exact .inr ⟨hP, Nat.le_of_eq (Nat.zero_add _)⟩
  | cons a as ih =>
    intro s s' hQ hP hrun
    obtain ⟨u, hu, hrest⟩ := run_cons_eq_some.mp hrun
    rcases hstep (hQ a List.mem_cons_self) hP hu with hG | ⟨hP', hμ⟩
    · exact .inl ⟨[a], ⟨as, rfl⟩, u, run_cons_eq_some.mpr ⟨u, hu, rfl⟩, hG⟩
    · rcases ih (fun b hb => hQ b (List.mem_cons_of_mem a hb)) hP' hrest with
        ⟨before, hbefore, v, hv, hG⟩ | ⟨hP'', hle⟩
      · exact .inl ⟨a :: before, List.cons_prefix_cons.mpr ⟨rfl, hbefore⟩, v,
          run_cons_eq_some.mpr ⟨u, hu, hv⟩, hG⟩
      · rw [List.length_cons]
        exact .inr ⟨hP'', by omega⟩

/-- **Where a step can be taken until the goal is met**, some run meets it. -/
theorem reaches_meets {P G : σ → Prop} {μ : σ → ℕ}
    (hstep : ∀ {s}, P s → ∃ a s', step s a = some s' ∧ (G s' ∨ P s' ∧ μ s' < μ s)) :
    ∀ {s : σ}, P s → ∃ s', Reaches step s s' ∧ G s' := by
  intro s
  induction hn : μ s using Nat.strongRecOn generalizing s with
  | ind n ih =>
    intro hP
    obtain ⟨a, u, hu, hG | ⟨hP', hμ⟩⟩ := hstep hP
    · exact ⟨u, .single hu, hG⟩
    · obtain ⟨v, hv, hG⟩ := ih (μ u) (hn ▸ hμ) rfl hP'
      exact ⟨v, .trans (.single hu) hv, hG⟩

/-- **Where every step is paid for**, out of what it earns or out of what `μ` has saved, until one
of them meets the goal, a run has met it on the way, or costs no more than it earns and than `μ`
was. -/
theorem run_amortized {P G E : σ → Prop} {μ : σ → ℕ} {cost earned : ι → ℕ}
    (hstep : ∀ {s a s'}, E s → P s → step s a = some s' →
      G s' ∨ P s' ∧ cost a + μ s' ≤ earned a + μ s) :
    ∀ {as : List ι} {s s' : σ}, Always E step s as → P s → run step s as = some s' →
      (∃ before, before <+: as ∧ ∃ u, run step s before = some u ∧ G u) ∨
        P s' ∧ (as.map cost).sum + μ s' ≤ (as.map earned).sum + μ s := by
  intro as
  induction as with
  | nil =>
    intro s s' _ hP hrun
    cases hrun
    exact .inr ⟨hP, Nat.le_refl _⟩
  | cons a as ih =>
    intro s s' hE hP hrun
    obtain ⟨u, hu, hrest⟩ := run_cons_eq_some.mp hrun
    obtain ⟨hfirst, hlater⟩ := (always_cons hu).mp hE
    rcases hstep hfirst hP hu with hG | ⟨hP', hle⟩
    · exact .inl ⟨[a], ⟨as, rfl⟩, u, run_cons_eq_some.mpr ⟨u, hu, rfl⟩, hG⟩
    · rcases ih hlater hP' hrest with ⟨before, hbefore, v, hv, hG⟩ | ⟨hP'', hle'⟩
      · exact .inl ⟨a :: before, List.cons_prefix_cons.mpr ⟨rfl, hbefore⟩, v,
          run_cons_eq_some.mpr ⟨u, hu, hv⟩, hG⟩
      · rw [List.map_cons, List.map_cons, List.sum_cons, List.sum_cons]
        exact .inr ⟨hP'', by omega⟩

end Transition
