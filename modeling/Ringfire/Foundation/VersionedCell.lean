import Mathlib.Data.Fintype.Basic

/-!
# Versioned cells

A cell holds a version word and a payload of several words. A writer marks the version word,
stores the payload words one by one and then stores a version it never used before. A reader
loads the version, copies the payload words one by one and loads the version again; it keeps the
copy when both loads gave the version it wanted.

The argument that such a copy is never torn does not depend on how the writers agree on who
writes: it only needs that a cell showing a version after a step either did not change, or shows
a version above every earlier one (`Evolves`). `Tracks` is what a reader in the middle of its
copy knows, and it survives every such step.

## Main results

* `Evolves.trans`: any number of writer steps between two reader steps is one such step
* `Tracks.evolves`: a reader's knowledge survives the writers' steps
* `Tracks.eq_of_complete`: a complete copy under an unchanged version is the cell's payload
-/

namespace VersionedCell

variable {ι ω : Type*} {marker : ℕ}

/-- The cell `(v, d)` became `(v', d')`, where no version stored before exceeds `top`. -/
def Evolves (marker top : ℕ) (v : ℕ) (d : ι → ω) (v' : ℕ) (d' : ι → ω) : Prop :=
  v' ≠ marker → (v' = v ∧ d' = d) ∨ top < v'

theorem Evolves.refl (top v : ℕ) (d : ι → ω) : Evolves marker top v d v d :=
  fun _ => .inl ⟨rfl, rfl⟩

theorem Evolves.trans {top top' v v' v'' : ℕ} {d d' d'' : ι → ω} (htop : top ≤ top')
    (h : Evolves marker top v d v' d') (h' : Evolves marker top' v' d' v'' d'') :
    Evolves marker top v d v'' d'' := by
  intro hm
  rcases h' hm with ⟨rfl, rfl⟩ | hlt
  · exact h hm
  · exact .inr (htop.trans_lt hlt)

/-- A reader of version `want` has copied the words outside `left` into `buf`: as long as the
cell still shows `want`, they are the cell's words. -/
structure Tracks (top want v : ℕ) (d buf : ι → ω) (left : Finset ι) : Prop where
  known : want ≤ top
  copied : v = want → ∀ i ∉ left, buf i = d i

section

variable [Fintype ι] [DecidableEq ι]

omit [DecidableEq ι] in
theorem Tracks.start {top want : ℕ} (d buf : ι → ω) (h : want ≤ top) :
    Tracks top want want d buf Finset.univ :=
  ⟨h, fun _ i hi => absurd (Finset.mem_univ i) hi⟩

omit [Fintype ι] in
theorem Tracks.copy {top want v : ℕ} {d buf : ι → ω} {left : Finset ι}
    (h : Tracks top want v d buf left) (i : ι) :
    Tracks top want v d (Function.update buf i (d i)) (left.erase i) := by
  refine ⟨h.known, fun hv j hj => ?_⟩
  rcases eq_or_ne j i with rfl | hne
  · rw [Function.update_self]
  · rw [Function.update_of_ne hne]
    exact h.copied hv j fun hmem => hj (Finset.mem_erase.mpr ⟨hne, hmem⟩)

end

theorem Tracks.evolves {top top' want v v' : ℕ} {d d' buf : ι → ω} {left : Finset ι}
    (h : Tracks top want v d buf left) (hwant : want ≠ marker) (htop : top ≤ top')
    (he : Evolves marker top v d v' d') : Tracks top' want v' d' buf left := by
  refine ⟨h.known.trans htop, fun hv => ?_⟩
  subst hv
  rcases he hwant with ⟨rfl, rfl⟩ | hlt
  · exact h.copied rfl
  · exact absurd hlt (Nat.not_lt.mpr h.known)

theorem Tracks.eq_of_complete {top want v : ℕ} {d buf : ι → ω}
    (h : Tracks top want v d buf ∅) (hv : v = want) : buf = d :=
  funext fun i => h.copied hv i (Finset.notMem_empty i)

end VersionedCell
