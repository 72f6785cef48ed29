import Ringfire.Blackboard.Consistency

/-!
# Reads of the blackboard are atomic

A read takes many memory accesses, and what it returns is what the table held at one moment between
the call and the return: a write that was complete when the call came is not missed, and what any
reader got before the call is not newer than what the call returns.

## Main definitions

* `Table.Since`: what a reader has returned since a moment at which it was in no call
* `Table.ReadBetween`: a result is what the table held at one moment between two others

## Main results

* `Table.Inv.locks_le`: a lock never falls
* `Table.Inv.read_between`: what a reader returns, the table held at one moment of the call
-/

namespace Ringfire

namespace Blackboard

open Transition

namespace Table

variable {ρ : Type} {n : ℕ} {t : TableLayout n} {s s' s'' : Table ρ n}

/-- A writer's step does not lower a lock. -/
theorem Inv.locks_le_writer (h : s.Inv t) (hb : s.Bounded t) {a : WriterLabel n}
    (hstep : s.stepWriter t s.writer a = some s') {key : ℕ} (hkey : key < t.slotCount) :
    t.seqlock s.mem key ≤ t.seqlock s'.mem key := by
  have hw := h.writer
  generalize s.writer = pc at hw hstep
  unfold Table.stepWriter at hstep
  split at hstep
  · split_ifs at hstep
    · cases hstep
      exact le_refl _
    · cases hstep
      exact le_refl _
  · next key' val s₀ =>
    cases hstep
    obtain ⟨hkey', hlock⟩ := hw
    obtain ⟨hlt, hle⟩ := lt_writeMark s₀
    have hsmall := hb key' hkey'
    rcases eq_or_ne key' key with rfl | hne
    · rw [t.seqlock_storeSeqlock (by omega), hlock]
      exact hlt.le
    · rw [t.seqlock_congr (t.storeSeqlock_of_ne hne _ _)]
  · next key' val writeS left i =>
    split_ifs at hstep
    cases hstep
    rcases eq_or_ne key' key with rfl | hne
    · rw [t.seqlock_update_value]
    · rw [t.seqlock_congr (t.update_value_of_ne hne _ _ _)]
  · next key' val writeS left =>
    split_ifs at hstep
    cases hstep
    obtain ⟨-, hlock, -, hlt, -⟩ := hw
    rcases eq_or_ne key' key with rfl | hne
    · rw [t.seqlock_storeSeqlock hlt, hlock]
      exact Nat.le_succ _
    · rw [t.seqlock_congr (t.storeSeqlock_of_ne hne _ _)]
  · cases hstep
    exact le_refl _
  · cases hstep

/-- **A lock never falls.** -/
theorem Inv.locks_le [DecidableEq ρ] (h : s.Inv t) (hb : s.Bounded t) {a : TableLabel ρ n}
    (hstep : s.step t a = some s') {key : ℕ} (hkey : key < t.slotCount) :
    t.seqlock s.mem key ≤ t.seqlock s'.mem key := by
  cases a with
  | writer a => exact h.locks_le_writer hb hstep hkey
  | reader r a =>
    obtain ⟨_, -, rfl⟩ := Option.map_eq_some_iff.mp hstep
    exact le_refl _

/-- What a call that begins after `s` may return: no lock below the one it found. -/
def NotBefore (t : TableLayout n) (s : Table ρ n) (y : Result n) : Prop :=
  y.key < t.slotCount ∧ t.seqlock s.mem y.key ≤ y.seqlock ∧ (y.value = none → y.seqlock = 0)

/-- Since `s`, where it was in no call, the reader has not gone back behind `s`. -/
structure Since (t : TableLayout n) (r : ρ) (s s' : Table ρ n) : Prop where
  locks : ∀ key < t.slotCount, t.seqlock s.mem key ≤ t.seqlock s'.mem key
  returned : ∃ new, s'.results r = s.results r ++ new ∧ ∀ y ∈ new, s.NotBefore t y
  pc : ∀ key s₁ buf left, s'.readers r = .copying key s₁ buf left → t.seqlock s.mem key ≤ s₁

theorem Since.refl {r : ρ} (hidle : s.readers r = .idle) : s.Since t r s := by
  refine ⟨fun _ _ => le_refl _, ⟨[], (List.append_nil _).symm, ?_⟩, fun key s₁ buf left hpc => ?_⟩
  · rintro _ ⟨⟩
  · rw [hidle] at hpc
    cases hpc

/-- A step of somebody else. -/
theorem Since.other {r : ρ} (h : s.Since t r s')
    (hlocks : ∀ key < t.slotCount, t.seqlock s'.mem key ≤ t.seqlock s''.mem key)
    (hreaders : s''.readers r = s'.readers r) (hresults : s''.results r = s'.results r) :
    s.Since t r s'' := by
  refine ⟨fun key hkey => (h.locks key hkey).trans (hlocks key hkey), ?_, ?_⟩
  · rw [hresults]
    exact h.returned
  · rw [hreaders]
    exact h.pc

/-- A writer leaves the readers alone. -/
theorem stepWriter_readers {pc : WriterPc n} {a : WriterLabel n}
    (hstep : s.stepWriter t pc a = some s') :
    s'.readers = s.readers ∧ s'.results = s.results := by
  unfold Table.stepWriter at hstep
  split at hstep
  all_goals
    first
    | split_ifs at hstep <;> cases hstep <;> exact ⟨rfl, rfl⟩
    | cases hstep <;> exact ⟨rfl, rfl⟩

variable [DecidableEq ρ]

/-- What the reader's own move does. -/
theorem Since.own {r : ρ} (h : s.Since t r s') (hinv : s'.Inv t) {a : ReaderLabel n}
    {pc : ReaderPc n} {res : Option (Result n)}
    (hmove : (s'.readers r).step t s'.mem a = some (pc, res)) :
    s.Since t r (s'.setReader r pc res) := by
  have hpc := (hinv.readers r).pc
  obtain ⟨new, hresults, hnew⟩ := h.returned
  have hafter := h.pc
  -- what is returned comes behind what was returned, and a copy starts under a lock not below
  suffices hmoved : (∀ y ∈ res, s.NotBefore t y) ∧
      ∀ key s₁ buf left, pc = .copying key s₁ buf left → t.seqlock s.mem key ≤ s₁ by
    refine ⟨h.locks, ⟨new ++ res.toList, ?_, fun y hy => ?_⟩, ?_⟩
    · simp only [setReader, Function.update_self, hresults, List.append_assoc]
    · rcases List.mem_append.mp hy with hy | hy
      · exact hnew y hy
      · exact hmoved.1 y (Option.mem_toList.mp hy)
    · simp only [setReader, Function.update_self]
      exact hmoved.2
  generalize s'.readers r = pc₀ at hmove hpc hafter
  unfold ReaderPc.step at hmove
  split at hmove
  · split_ifs at hmove <;>
    · cases hmove
      exact ⟨by rintro _ ⟨⟩, by rintro _ _ _ _ ⟨⟩⟩
  · next key =>
    have hle := h.locks key hpc
    split_ifs at hmove with hzero heven
    · cases hmove
      refine ⟨?_, by rintro _ _ _ _ ⟨⟩⟩
      rintro _ ⟨⟩
      exact ⟨hpc, hzero ▸ hle, fun _ => rfl⟩
    · cases hmove
      refine ⟨by rintro _ ⟨⟩, ?_⟩
      rintro _ _ _ _ ⟨⟩
      exact hle
    · cases hmove
      exact ⟨by rintro _ ⟨⟩, by rintro _ _ _ _ ⟨⟩⟩
  · cases hmove
    exact ⟨by rintro _ ⟨⟩, by rintro _ _ _ _ ⟨⟩⟩
  · next key s₁ buf left i =>
    split_ifs at hmove
    cases hmove
    refine ⟨by rintro _ ⟨⟩, ?_⟩
    rintro _ _ _ _ ⟨⟩
    exact hafter key s₁ buf left rfl
  · next key s₁ buf left =>
    split_ifs at hmove
    · cases hmove
      refine ⟨?_, by rintro _ _ _ _ ⟨⟩⟩
      rintro _ ⟨⟩
      exact ⟨hpc.1, hafter key s₁ buf left rfl, by rintro ⟨⟩⟩
    · cases hmove
      exact ⟨by rintro _ ⟨⟩, by rintro _ _ _ _ ⟨⟩⟩
  · cases hmove

/-- Every memory access keeps what holds since `s`. -/
theorem Since.step {r : ρ} (h : s.Since t r s') (hinv : s'.Inv t) (hb : s'.Bounded t)
    {a : TableLabel ρ n} (hstep : Table.step t s' a = some s'') : s.Since t r s'' := by
  have hlocks : ∀ key < t.slotCount, t.seqlock s'.mem key ≤ t.seqlock s''.mem key :=
    fun key hkey => hinv.locks_le hb hstep hkey
  cases a with
  | writer a =>
    obtain ⟨hreaders, hresults⟩ := stepWriter_readers hstep
    exact h.other hlocks (congrFun hreaders r) (congrFun hresults r)
  | reader r' a =>
    obtain ⟨⟨pc, res⟩, hmove, rfl⟩ := Option.map_eq_some_iff.mp hstep
    rcases eq_or_ne r r' with rfl | hne
    · exact h.own hinv hmove
    · exact h.other hlocks (Function.update_of_ne hne _ _) (Function.update_of_ne hne _ _)

/-- `y` is what the table held at one moment between `s` and `s'`. -/
structure ReadBetween (t : TableLayout n) (s s' : Table ρ n) (y : Result n) : Prop where
  key_lt : y.key < t.slotCount
  /-- A value is that of a complete write. -/
  written : ∀ v, y.value = some v → (y.seqlock, v) ∈ s'.completed y.key
  /-- `None` says that no write had begun. -/
  unwritten : y.value = none → y.key ∉ s.begun
  /-- No write that was complete is missed. -/
  fresh : ∀ w ∈ s.completed y.key, w.1 ≤ y.seqlock
  /-- Nobody had a newer value before. -/
  forward : ∀ r, ∀ x ∈ s.results r, x.key = y.key → x.seqlock ≤ y.seqlock

/-- The results of a reader that was in no call, from then on. -/
theorem Inv.read_between (h : s.Inv t) {r : ρ} (hidle : s.readers r = .idle)
    (hreach : ReachesBy (fun s _ => s.Bounded t) (Table.step t) s s') :
    ∃ new, s'.results r = s.results r ++ new ∧ ∀ y ∈ new, s.ReadBetween t s' y := by
  obtain ⟨hinv, hsince⟩ : s'.Inv t ∧ s.Since t r s' :=
    hreach.invariant (P := fun u => u.Inv t ∧ s.Since t r u)
      (fun hu hb hstep => ⟨hu.1.step hb hstep, hu.2.step hu.1 hb hstep⟩) ⟨h, .refl hidle⟩
  obtain ⟨new, hresults, hnew⟩ := hsince.returned
  refine ⟨new, hresults, fun y hy => ?_⟩
  obtain ⟨hkey, hle, hnone⟩ := hnew y hy
  have hmem : y ∈ s'.results r := hresults ▸ List.mem_append_right _ hy
  refine ⟨hkey, (hinv.readers r).written y hmem, fun hvalue => ?_, fun w hw => ?_,
    fun r' x hx hxy => ?_⟩
  · refine (h.slots y.key hkey).untouched ?_
    rw [hnone hvalue] at hle
    exact Nat.le_zero.mp hle
  · exact ((h.slots y.key hkey).bounded w hw).trans hle
  · have hknown := ((h.readers r').known x hx).2
    rw [hxy] at hknown
    exact hknown.trans hle

end Table

end Blackboard

end Ringfire
