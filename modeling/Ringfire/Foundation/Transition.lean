import Mathlib.Data.List.Basic
import Mathlib.Order.Basic

/-!
# Labelled transition functions

A system is a partial step function `σ → ι → Option σ`: the label names who moves and settles
every choice the mover has, so a run is a list of labels. An interleaving of several threads is
a run whose labels name the threads.

## Main definitions

* `run step s as`: the state reached from `s` by the labels `as`
* `Reaches step s t`: `t` is reached from `s` by some run
* `ReachesBy allowed step s t`: the same, by a run that takes only allowed steps
* `Always E step s as`: every state of the run satisfies `E`
* `Avoids bad step s as`: no step of the run is bad

## Main results

* `run_append`: runs compose
* `run_invariant`: what every step with an allowed label preserves, every run with allowed
  labels preserves
* `Reaches.invariant`: the same for reachability
* `always_iff_avoids`: a property that only bad steps break holds as long as the run avoids them
* `run_measure_iff`: a measure that only bad steps raise tells whether a run avoided them
-/

namespace Transition

variable {σ ι : Type*} {step : σ → ι → Option σ}

/-- The state reached from `s` by taking the labels in order; `none` when one of them is not
enabled. -/
def run (step : σ → ι → Option σ) : σ → List ι → Option σ
  | s, [] => some s
  | s, a :: as => (step s a).bind fun s' => run step s' as

/-- `t` is reached from `s` by some run. -/
def Reaches (step : σ → ι → Option σ) (s t : σ) : Prop :=
  ∃ as, run step s as = some t

@[simp] theorem run_nil (s : σ) : run step s [] = some s := rfl

theorem run_cons_eq_some {s t : σ} {a : ι} {as : List ι} :
    run step s (a :: as) = some t ↔ ∃ s', step s a = some s' ∧ run step s' as = some t := by
  simp only [run, Option.bind_eq_some_iff]

theorem run_append {s t : σ} {as bs : List ι} :
    run step s (as ++ bs) = some t ↔ ∃ u, run step s as = some u ∧ run step u bs = some t := by
  induction as generalizing s with
  | nil => simp
  | cons a as ih =>
    rw [List.cons_append, run_cons_eq_some]
    constructor
    · rintro ⟨s', hs, hr⟩
      obtain ⟨u, hu, ht⟩ := ih.mp hr
      exact ⟨u, run_cons_eq_some.mpr ⟨s', hs, hu⟩, ht⟩
    · rintro ⟨u, hu, ht⟩
      obtain ⟨s', hs, hr⟩ := run_cons_eq_some.mp hu
      exact ⟨s', hs, ih.mpr ⟨u, hr, ht⟩⟩

/-- **The invariant rule.** What a step with an allowed label preserves is preserved by every
run whose labels are all allowed. -/
theorem run_invariant {P : σ → Prop} {Q : ι → Prop}
    (hstep : ∀ {s a s'}, Q a → P s → step s a = some s' → P s') :
    ∀ {as : List ι} {s t : σ}, (∀ a ∈ as, Q a) → P s → run step s as = some t → P t := by
  intro as
  induction as with
  | nil =>
    intro s t _ hs hr
    cases hr
    exact hs
  | cons a as ih =>
    intro s t hQ hs hr
    obtain ⟨s', hs', hr'⟩ := run_cons_eq_some.mp hr
    exact ih (fun b hb => hQ b (List.mem_cons_of_mem a hb))
      (hstep (hQ a List.mem_cons_self) hs hs') hr'

theorem Reaches.refl (s : σ) : Reaches step s s := ⟨[], rfl⟩

theorem Reaches.single {s t : σ} {a : ι} (h : step s a = some t) : Reaches step s t :=
  ⟨[a], run_cons_eq_some.mpr ⟨t, h, rfl⟩⟩

theorem Reaches.trans {s t u : σ} (h : Reaches step s t) (h' : Reaches step t u) :
    Reaches step s u := by
  obtain ⟨as, ha⟩ := h
  obtain ⟨bs, hb⟩ := h'
  exact ⟨as ++ bs, run_append.mpr ⟨t, ha, hb⟩⟩

theorem Reaches.invariant {P : σ → Prop} (hstep : ∀ {s a s'}, P s → step s a = some s' → P s')
    {s t : σ} (h : Reaches step s t) (hs : P s) : P t := by
  obtain ⟨as, ha⟩ := h
  exact run_invariant (Q := fun _ => True) (fun _ => hstep) (fun _ _ => trivial) hs ha

/-- `t` is reached from `s` by a run whose steps are all allowed in the states they are taken
from. -/
inductive ReachesBy (allowed : σ → ι → Prop) (step : σ → ι → Option σ) (s : σ) : σ → Prop where
  | refl : ReachesBy allowed step s s
  | tail {t u : σ} {a : ι} (prior : ReachesBy allowed step s t) (ok : allowed t a)
      (next : step t a = some u) : ReachesBy allowed step s u

/-- A run whose labels are allowed in every state goes on. -/
theorem ReachesBy.append {allowed : σ → ι → Prop} {s t u : σ} {as : List ι}
    (h : ReachesBy allowed step s t) (hr : run step t as = some u)
    (hok : ∀ a ∈ as, ∀ v, allowed v a) : ReachesBy allowed step s u := by
  induction as generalizing t with
  | nil =>
    cases hr
    exact h
  | cons a as ih =>
    obtain ⟨t', ht, hr'⟩ := run_cons_eq_some.mp hr
    exact ih (h.tail (hok a List.mem_cons_self t) ht) hr'
      fun b hb => hok b (List.mem_cons_of_mem a hb)

/-- The steps that are allowed. -/
def guarded (allowed : σ → ι → Prop) [∀ s a, Decidable (allowed s a)] (step : σ → ι → Option σ) :
    σ → ι → Option σ := fun s a => if allowed s a then step s a else none

/-- A run of allowed steps. -/
theorem ReachesBy.of_run {allowed : σ → ι → Prop} [∀ s a, Decidable (allowed s a)] (as : List ι)
    {s t u : σ} (h : ReachesBy allowed step s t) (hr : run (guarded allowed step) t as = some u) :
    ReachesBy allowed step s u := by
  induction as generalizing t with
  | nil =>
    cases hr
    exact h
  | cons a as ih =>
    obtain ⟨t', ht, hr'⟩ := run_cons_eq_some.mp hr
    unfold guarded at ht
    split_ifs at ht with hok
    exact ih (h.tail hok ht) hr'

theorem ReachesBy.invariant {allowed : σ → ι → Prop} {P : σ → Prop}
    (hstep : ∀ {s a s'}, P s → allowed s a → step s a = some s' → P s')
    {s t : σ} (h : ReachesBy allowed step s t) (hs : P s) : P t := by
  induction h with
  | refl => exact hs
  | tail _ ok next ih => exact hstep ih ok next

/-- Every state on the way of the run satisfies `E`, the first and the last included. -/
def Always (E : σ → Prop) (step : σ → ι → Option σ) (s : σ) (as : List ι) : Prop :=
  ∀ pre post u, as = pre ++ post → run step s pre = some u → E u

theorem always_nil {E : σ → Prop} {s : σ} : Always E step s [] ↔ E s := by
  constructor
  · intro h
    exact h [] [] s rfl rfl
  · intro h pre post u hsplit hr
    obtain ⟨rfl, -⟩ := List.append_eq_nil_iff.mp hsplit.symm
    cases hr
    exact h

theorem always_cons {E : σ → Prop} {s s' : σ} {a : ι} {as : List ι} (hs : step s a = some s') :
    Always E step s (a :: as) ↔ E s ∧ Always E step s' as := by
  constructor
  · intro h
    refine ⟨h [] (a :: as) s rfl rfl, fun pre post u hsplit hr => ?_⟩
    exact h (a :: pre) post u (by rw [hsplit, List.cons_append])
      (run_cons_eq_some.mpr ⟨s', hs, hr⟩)
  · rintro ⟨hfirst, hrest⟩ pre post u hsplit hr
    cases pre with
    | nil =>
      cases hr
      exact hfirst
    | cons c pre =>
      cases hsplit
      obtain ⟨s'', hs'', hr'⟩ := run_cons_eq_some.mp hr
      cases hs.symm.trans hs''
      exact hrest pre post u rfl hr'

/-- No step of the run from `s` by the labels `as` is bad in the state it is taken from. -/
def Avoids (bad : σ → ι → Prop) (step : σ → ι → Option σ) (s : σ) (as : List ι) : Prop :=
  ∀ pre a post u, as = pre ++ a :: post → run step s pre = some u → ¬ bad u a

theorem avoids_cons {bad : σ → ι → Prop} {s s' : σ} {a : ι} {as : List ι}
    (hs : step s a = some s') :
    Avoids bad step s (a :: as) ↔ ¬ bad s a ∧ Avoids bad step s' as := by
  constructor
  · intro h
    refine ⟨h [] a as s rfl rfl, fun pre b post u hsplit hr => ?_⟩
    exact h (a :: pre) b post u (by rw [hsplit, List.cons_append])
      (run_cons_eq_some.mpr ⟨s', hs, hr⟩)
  · rintro ⟨hgood, hrest⟩ pre b post u hsplit hr
    cases pre with
    | nil =>
      cases hsplit
      cases hr
      exact hgood
    | cons c pre =>
      cases hsplit
      obtain ⟨s'', hs'', hr'⟩ := run_cons_eq_some.mp hr
      cases hs.symm.trans hs''
      exact hrest pre b post u rfl hr'

/-- **A property that only bad steps break.** It holds all the way when the run avoids them, and
only then. `G` is what the property rests on. -/
theorem always_iff_avoids {P G E : σ → Prop} {bad : σ → ι → Prop}
    (hinv : ∀ {s a s'}, P s → step s a = some s' → P s')
    (hgood : ∀ {s a s'}, P s → G s → ¬ bad s a → step s a = some s' → G s')
    (hbad : ∀ {s a s'}, P s → bad s a → step s a = some s' → ¬ E s')
    (hholds : ∀ {s}, P s → G s → E s) {as : List ι} {s t : σ} (hP : P s) (hG : G s)
    (hr : run step s as = some t) : Always E step s as ↔ Avoids bad step s as := by
  induction as generalizing s with
  | nil =>
    refine ⟨fun _ pre a post u h => absurd h (by simp), fun _ => ?_⟩
    exact always_nil.mpr (hholds hP hG)
  | cons a as ih =>
    obtain ⟨s', hs', hr'⟩ := run_cons_eq_some.mp hr
    rw [always_cons hs', avoids_cons hs']
    by_cases hb : bad s a
    · refine ⟨fun h => absurd (h.2 [] as s' rfl rfl) (hbad hP hb hs'), fun h => absurd hb h.1⟩
    · rw [ih (hinv hP hs') (hgood hP hG hb hs') hr']
      exact ⟨fun h => ⟨hb, h.2⟩, fun h => ⟨hholds hP hG, h.2⟩⟩

section

variable {α : Type*} [Preorder α] {μ : σ → α} {P : σ → Prop} {Q : ι → Prop}
  {bad : σ → ι → Prop}

/-- A measure that no step lowers is not lower at the end of a run. -/
theorem run_measure_le
    (hstep : ∀ {s a s'}, Q a → P s → step s a = some s' → P s' ∧ μ s ≤ μ s') :
    ∀ {as : List ι} {s t : σ}, (∀ a ∈ as, Q a) → P s → run step s as = some t → μ s ≤ μ t := by
  intro as
  induction as with
  | nil =>
    intro s t _ _ hr
    cases hr
    exact le_refl _
  | cons a as ih =>
    intro s t hQ hs hr
    obtain ⟨s', hs', hr'⟩ := run_cons_eq_some.mp hr
    obtain ⟨hP, hle⟩ := hstep (hQ a List.mem_cons_self) hs hs'
    exact hle.trans (ih (fun b hb => hQ b (List.mem_cons_of_mem a hb)) hP hr')

/-- **A measure that only bad steps raise** is the same at the end of a run exactly when the run
avoided them. -/
theorem run_measure_iff (hstep : ∀ {s a s'}, Q a → P s → step s a = some s' →
      P s' ∧ (bad s a → μ s < μ s') ∧ (¬ bad s a → μ s' = μ s))
    {as : List ι} {s t : σ} (hQ : ∀ a ∈ as, Q a) (hs : P s) (hr : run step s as = some t) :
    μ t = μ s ↔ Avoids bad step s as := by
  have hle {s a s'} (ha : Q a) (hP : P s) (h : step s a = some s') : P s' ∧ μ s ≤ μ s' := by
    obtain ⟨hP', hbad, hgood⟩ := hstep ha hP h
    refine ⟨hP', ?_⟩
    by_cases hb : bad s a
    · exact (hbad hb).le
    · exact (hgood hb).ge
  induction as generalizing s with
  | nil =>
    cases hr
    exact ⟨fun _ pre a post u h => absurd h (by simp), fun _ => rfl⟩
  | cons a as ih =>
    obtain ⟨s', hs', hr'⟩ := run_cons_eq_some.mp hr
    have hQ' : ∀ b ∈ as, Q b := fun b hb => hQ b (List.mem_cons_of_mem a hb)
    obtain ⟨hP, hbad, hgood⟩ := hstep (hQ a List.mem_cons_self) hs hs'
    rw [avoids_cons hs']
    by_cases hb : bad s a
    · -- the measure has risen and does not come back
      have hlt : μ s < μ t := (hbad hb).trans_le (run_measure_le hle hQ' hP hr')
      exact ⟨fun heq => absurd hlt (heq ▸ lt_irrefl _), fun h => absurd hb h.1⟩
    · rw [← hgood hb]
      exact (ih hQ' hP hr').trans ⟨fun h => ⟨hb, h⟩, fun h => h.2⟩

end

end Transition
