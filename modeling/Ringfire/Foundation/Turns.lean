import Mathlib.Tactic.Common

/-!
# Loops

A loop is a function that takes a state one turn further, to a result or to the state of the next
turn. It runs on fuel, and it ends with a result if some fuel is enough. Two loops that match turn
for turn end with matching results.

## Main definitions

* `Turns.run`: the loop on fuel
* `Turns.Ends`: the loop ends with a result
* `Turns.Lockstep`: one turn of either loop

## Main results

* `Ends.unique`: a loop ends with at most one result
* `not_ends_of_fixed`: a loop that stays where it is does not end
* `exists_ends_of_lockstep`: loops in lockstep, one of which makes progress, end with matching
  results
-/

namespace Turns

/-- What a turn leads to. -/
inductive Step (ρ σ : Type) where
  | stop (r : ρ)
  | next (s : σ)

variable {ρ ρ' σ σ' : Type}

/-- The loop, as far as the fuel lasts. -/
def run (turn : σ → Step ρ σ) : ℕ → σ → Option ρ
  | 0, _ => none
  | fuel + 1, s =>
    match turn s with
    | .stop r => some r
    | .next s' => run turn fuel s'

/-- The loop ends with `r`. -/
def Ends (turn : σ → Step ρ σ) (s : σ) (r : ρ) : Prop := ∃ fuel, run turn fuel s = some r

variable {turn : σ → Step ρ σ} {s s' : σ} {r r' : ρ}

theorem ends_of_stop (h : turn s = .stop r) : Ends turn s r' ↔ r' = r := by
  constructor
  · rintro ⟨fuel, hrun⟩
    cases fuel with
    | zero => cases hrun
    | succ fuel =>
      rw [run, h] at hrun
      exact (Option.some.inj hrun).symm
  · rintro rfl
    exact ⟨1, by rw [run, h]⟩

theorem ends_of_next (h : turn s = .next s') : Ends turn s r ↔ Ends turn s' r := by
  constructor
  · rintro ⟨fuel, hrun⟩
    cases fuel with
    | zero => cases hrun
    | succ fuel =>
      rw [run, h] at hrun
      exact ⟨fuel, hrun⟩
  · rintro ⟨fuel, hrun⟩
    exact ⟨fuel + 1, by rw [run, h]; exact hrun⟩

/-- What every turn of a loop makes of its state. -/
theorem Ends.induct {P : σ → ρ → Prop} (hstop : ∀ s r, turn s = .stop r → P s r)
    (hnext : ∀ s s' r, turn s = .next s' → P s' r → P s r) (h : Ends turn s r) : P s r := by
  obtain ⟨fuel, hrun⟩ := h
  induction fuel generalizing s with
  | zero => cases hrun
  | succ fuel ih =>
    rw [run] at hrun
    split at hrun
    · next r' hturn =>
      obtain rfl := Option.some.inj hrun
      exact hstop s r' hturn
    · next s' hturn => exact hnext s s' r hturn (ih hrun)

/-- A loop ends with at most one result. -/
theorem Ends.unique (h : Ends turn s r) (h' : Ends turn s r') : r' = r := by
  revert h'
  refine h.induct (P := fun s r => Ends turn s r' → r' = r) ?_ ?_
  · intro s r hturn h'
    exact (ends_of_stop hturn).mp h'
  · intro s s' r hturn ih h'
    exact ih ((ends_of_next hturn).mp h')

/-- A loop that stays where it is does not end. -/
theorem not_ends_of_fixed (h : turn s = .next s) : ¬ Ends turn s r := by
  rintro ⟨fuel, hrun⟩
  induction fuel with
  | zero => cases hrun
  | succ fuel ih =>
    rw [run, h] at hrun
    exact ih hrun

/-- Either both turns stop, with matching results, or both go on, with matching states. -/
def Lockstep (R : σ → σ' → Prop) (Q : ρ → ρ' → Prop) : Step ρ σ → Step ρ' σ' → Prop
  | .stop r, .stop r' => Q r r'
  | .next s, .next s' => R s s'
  | _, _ => False

/-- **Loops in lockstep.** When every turn from matching states matches, and every turn that goes on
brings a measure down, both loops end, with matching results. -/
theorem exists_ends_of_lockstep {turn' : σ' → Step ρ' σ'} {R : σ → σ' → Prop} {Q : ρ → ρ' → Prop}
    (measure : σ → ℕ) (hturn : ∀ s t, R s t → Lockstep R Q (turn s) (turn' t))
    (hmeasure : ∀ s t s', R s t → turn s = .next s' → measure s' < measure s) {s : σ} {t : σ'}
    (h : R s t) : ∃ r r', Ends turn s r ∧ Ends turn' t r' ∧ Q r r' := by
  induction hn : measure s using Nat.strongRecOn generalizing s t with
  | ind n ih =>
    have hmatch := hturn s t h
    cases hs : turn s with
    | stop r =>
      rw [hs] at hmatch
      cases ht : turn' t with
      | stop r' =>
        rw [ht] at hmatch
        exact ⟨r, r', (ends_of_stop hs).mpr rfl, (ends_of_stop ht).mpr rfl, hmatch⟩
      | next t' =>
        rw [ht] at hmatch
        exact hmatch.elim
    | next s' =>
      have hlt := hmeasure s t s' h hs
      rw [hs] at hmatch
      cases ht : turn' t with
      | stop r' =>
        rw [ht] at hmatch
        exact hmatch.elim
      | next t' =>
        rw [ht] at hmatch
        obtain ⟨r, r', hr, hr', hq⟩ := ih (measure s') (hn ▸ hlt) hmatch rfl
        exact ⟨r, r', (ends_of_next hs).mpr hr, (ends_of_next ht).mpr hr', hq⟩

end Turns
