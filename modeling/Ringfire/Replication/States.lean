import Ringfire.Replication.Collect

/-!
# Collecting from a ring that changes

`collect` reads one record after the other while the source goes on pushing, so each of its reads
finds a ring of its own. `RingStates` are these rings, in the order of the reads; nothing is said
about how one becomes the next.

## Main definitions

* `RingStates.collect`: `collect`
* `RingStates.collectLingering`: `collect_lingering`

## Main results

* `RingStates.collectLoop_keeps`: the records gathered are counted, and fit once there is one
-/

namespace Ringfire

variable {w : ℕ}

/-- The states of the ring that the reads of one call of `collect` find. -/
abbrev RingStates (w : ℕ) : Type := ℕ → SourceRing w

namespace RingStates

/-- The loop of `collect`: `left` more records may be gathered. -/
def collectLoop (rings : RingStates w) (cursor maxBytes : ℕ) :
    ℕ → ℕ → List Record → Collected × List Record
  | 0, count, out => (⟨count, none, false⟩, out)
  | left + 1, count, out =>
    match collectTurn maxBytes count out ((rings count).readRecord (cursor + count)) with
    | .stop got out' => (got, out')
    | .goOn out' => rings.collectLoop cursor maxBytes left (count + 1) out'

/-- `collect`. -/
def collect (rings : RingStates w) (cursor maxRecords maxBytes : ℕ) (out : List Record) :
    Collected × List Record :=
  rings.collectLoop cursor maxBytes maxRecords 0 out

/-- What the loop of `collect_lingering` holds after it collected again. -/
def collectMore (rings : RingStates w) (cursor maxRecords maxBytes : ℕ)
    (got : Collected × List Record) : Collected × List Record :=
  let more := rings.collect (cursor + got.1.count) (maxRecords - got.1.count) maxBytes got.2
  (⟨got.1.count + more.1.count, more.1.lapped, more.1.lost⟩, more.2)

/-- The loop of `collect_lingering`, with the states that its calls of `collect` find. -/
def lingerLoop (cursor maxRecords maxBytes : ℕ) :
    List (RingStates w) → Collected × List Record → Collected × List Record
  | [], got => got
  | rings :: later, got =>
    if got.1.full maxRecords maxBytes got.2 then got
    else lingerLoop cursor maxRecords maxBytes later
      (rings.collectMore cursor maxRecords maxBytes got)

/-- `collect_lingering`, when its first call of `collect` finds `rings` and the others `later`. -/
def collectLingering (rings : RingStates w) (later : List (RingStates w))
    (cursor maxRecords maxBytes : ℕ) : Collected × List Record :=
  let got := rings.collect cursor maxRecords maxBytes []
  if got.1.count = 0 ∨ got.1.full maxRecords maxBytes got.2 then got
  else lingerLoop cursor maxRecords maxBytes later got

/-- A ring that does not change. -/
theorem collectLoop_const (ring : SourceRing w) (cursor maxBytes : ℕ) :
    ∀ (left count : ℕ) (out : List Record),
      collectLoop (fun _ => ring) cursor maxBytes left count out =
        ring.collectLoop cursor maxBytes left count out := by
  intro left
  induction left with
  | zero =>
    intro count out
    rfl
  | succ left ih =>
    intro count out
    rw [collectLoop, SourceRing.collectLoop]
    cases collectTurn maxBytes count out (ring.readRecord (cursor + count)) with
    | stop got out' => rfl
    | goOn out' => exact ih (count + 1) out'

/-- The loop of `collect` counts the records it takes, takes no more than it may and, once it has
taken one, keeps to the budget. -/
theorem collectLoop_keeps (rings : RingStates w) (cursor maxBytes : ℕ) :
    ∀ (left count : ℕ) (out : List Record),
      ∃ rs, (rings.collectLoop cursor maxBytes left count out).2 = out ++ rs ∧
        (rings.collectLoop cursor maxBytes left count out).1.count = count + rs.length ∧
        rs.length ≤ left ∧
        (0 < count → wireLen out ≤ maxBytes → wireLen (out ++ rs) ≤ maxBytes) := by
  -- induction on the records that may still be taken
  intro left
  induction left with
  | zero =>
    intro count out
    exact ⟨[], (List.append_nil out).symm, rfl, le_refl 0, fun _ h => by rwa [List.append_nil]⟩
  | succ left ih =>
    intro count out
    -- whatever stops the loop leaves the frame as it is
    have hstop : ∃ rs, out = out ++ rs ∧ count = count + rs.length ∧ rs.length ≤ left + 1 ∧
        (0 < count → wireLen out ≤ maxBytes → wireLen (out ++ rs) ≤ maxBytes) :=
      ⟨[], (List.append_nil out).symm, rfl, Nat.zero_le _, fun _ h => by rwa [List.append_nil]⟩
    rw [collectLoop]
    cases (rings count).readRecord (cursor + count) with
    | pending | overwritten seen | lost => exact hstop
    | item r =>
      simp only [collectTurn]
      by_cases hover : 0 < count ∧ maxBytes < wireLen (out ++ [r])
      · rw [if_pos hover]
        exact hstop
      have hfits : 0 < count → wireLen (out ++ [r]) ≤ maxBytes := fun hpos =>
        Nat.not_lt.mp fun hlong => hover ⟨hpos, hlong⟩
      rw [if_neg hover]
      by_cases hfull : maxBytes ≤ wireLen (out ++ [r])
      · rw [if_pos hfull]
        exact ⟨[r], rfl, rfl, Nat.le_add_left 1 left, fun hpos _ => hfits hpos⟩
      · rw [if_neg hfull]
        obtain ⟨rs, hout, hcount, hle, hbytes⟩ := ih (count + 1) (out ++ [r])
        rw [List.append_assoc] at hout hbytes
        refine ⟨r :: rs, hout, ?_, Nat.succ_le_succ hle, fun hpos _ => ?_⟩
        · rw [List.length_cons]
          exact hcount.trans (Nat.add_right_comm count 1 rs.length)
        · exact hbytes (Nat.succ_pos count) (hfits hpos)

end RingStates

end Ringfire
