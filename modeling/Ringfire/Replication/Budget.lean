import Ringfire.Replication.States

/-!
# The budget of a frame

`collect` stops before a frame would exceed its budget, unless the frame is still empty: a single
record is never split. It knows that the frame is empty from its own count of records, and this
count starts over whenever the loop of `collect_lingering` calls it again. Here each call of
`collect` finds the ring in a state of its own, and the length of the list of states is how often
the clock lets the loop go around.

## Main definitions

* `SourceRing.lingerOver`, `SourceRing.collectLingeringOver`: `collect_lingering` on a ring that
  changes between the calls
* `WithinBudget`: a frame keeps to its budget
* `SourceRing.Fits`: no later call of `collect` starts with a record that is too long for what is
  left of the budget

## Main results

* `SourceRing.withinBudget_iff`: the frame keeps to its budget exactly when that is so
-/

namespace Ringfire

variable {w : ℕ}

/-- A frame is no longer than its budget or holds one record, and does not hold too many. -/
structure WithinBudget (maxRecords maxBytes : ℕ) (out : List Record) : Prop where
  bytes : wireLen out ≤ maxBytes ∨ out.length = 1
  records : out.length ≤ maxRecords

namespace SourceRing

/-- What the loop of `collect_lingering` holds after it collected again from `ring`. -/
def collectMore (ring : SourceRing w) (cursor maxRecords maxBytes : ℕ)
    (got : Collected × List Record) : Collected × List Record :=
  let more := ring.collect (cursor + got.1.count) (maxRecords - got.1.count) maxBytes got.2
  (⟨got.1.count + more.1.count, more.1.lapped, more.1.lost⟩, more.2)

/-- The loop of `collect_lingering`, with the states of the ring that its calls of `collect`
find. -/
def lingerOver (cursor maxRecords maxBytes : ℕ) :
    List (SourceRing w) → Collected × List Record → Collected × List Record
  | [], got => got
  | ring :: later, got =>
    if got.1.full maxRecords maxBytes got.2 then got
    else lingerOver cursor maxRecords maxBytes later
      (ring.collectMore cursor maxRecords maxBytes got)

/-- `collect_lingering`, when its first call of `collect` finds `ring` and the others `later`. -/
def collectLingeringOver (ring : SourceRing w) (later : List (SourceRing w))
    (cursor maxRecords maxBytes : ℕ) : Collected × List Record :=
  let got := ring.collect cursor maxRecords maxBytes []
  if got.1.count = 0 ∨ got.1.full maxRecords maxBytes got.2 then got
  else lingerOver cursor maxRecords maxBytes later got

/-- A ring that does not change. -/
theorem collectLingeringOver_replicate (ring : SourceRing w)
    (cursor maxRecords maxBytes rounds : ℕ) :
    ring.collectLingeringOver (List.replicate rounds ring) cursor maxRecords maxBytes =
      ring.collectLingering cursor maxRecords maxBytes rounds := by
  have hloop (n : ℕ) (got : Collected × List Record) :
      lingerOver cursor maxRecords maxBytes (List.replicate n ring) got =
        ring.lingerLoop cursor maxRecords maxBytes n got := by
    induction n generalizing got with
    | zero => rfl
    | succ n ih =>
      rw [List.replicate_succ, lingerOver, lingerLoop, ih]
      rfl
  unfold collectLingeringOver collectLingering
  simp only [hloop]

/-- With the records `got` in the frame, no later call of `collect` starts with a record that is
too long for what is left of the budget. -/
def Fits (cursor maxRecords maxBytes : ℕ) :
    List (SourceRing w) → Collected × List Record → Prop
  | [], _ => True
  | ring :: later, got =>
    0 < got.1.count → got.1.full maxRecords maxBytes got.2 = false →
      (∀ r, ring.readRecord (cursor + got.1.count) = .item r →
        wireLen (got.2 ++ [r]) ≤ maxBytes) ∧
      Fits cursor maxRecords maxBytes later (ring.collectMore cursor maxRecords maxBytes got)

/-! ## One call of `collect` -/

variable {ring : SourceRing w} {cursor maxRecords maxBytes : ℕ}

/-- The loop of `collect` counts the records it takes, takes no more than it may and, once it has
taken one, keeps to the budget. -/
theorem collectLoop_keeps (ring : SourceRing w) (cursor maxBytes left count : ℕ)
    (out : List Record) :
    ∃ rs, (ring.collectLoop cursor maxBytes left count out).2 = out ++ rs ∧
      (ring.collectLoop cursor maxBytes left count out).1.count = count + rs.length ∧
      rs.length ≤ left ∧
      (0 < count → wireLen out ≤ maxBytes → wireLen (out ++ rs) ≤ maxBytes) := by
  rw [← RingStates.collectLoop_const]
  exact RingStates.collectLoop_keeps _ cursor maxBytes left count out

/-- A first record that reaches the budget is the only one that is taken. -/
theorem collect_of_long {r : Record} {out : List Record} (hpos : 0 < maxRecords)
    (hr : ring.readRecord cursor = .item r) (hlong : maxBytes ≤ wireLen (out ++ [r])) :
    ring.collect cursor maxRecords maxBytes out = (⟨1, none, false⟩, out ++ [r]) := by
  obtain ⟨left, rfl⟩ := Nat.exists_eq_succ_of_ne_zero hpos.ne'
  rw [collect, collectLoop, Nat.add_zero, hr]
  simp only [collectTurn, Nat.lt_irrefl, false_and, if_false, hlong, if_true, Nat.zero_add]

/-- A call of `collect` whose first record fits keeps to the budget. -/
theorem collect_bytes {out : List Record} (hout : wireLen out ≤ maxBytes)
    (hfit : ∀ r, ring.readRecord cursor = .item r → wireLen (out ++ [r]) ≤ maxBytes) :
    wireLen (ring.collect cursor maxRecords maxBytes out).2 ≤ maxBytes := by
  cases maxRecords with
  | zero => exact hout
  | succ left =>
    rw [collect, collectLoop, Nat.add_zero]
    cases hr : ring.readRecord cursor with
    | item r =>
      simp only [collectTurn, Nat.lt_irrefl, false_and, if_false]
      split_ifs
      · exact hfit r hr
      · obtain ⟨rs, hout', -, -, hbytes⟩ :=
          collectLoop_keeps ring cursor maxBytes left 1 (out ++ [r])
        rw [hout']
        exact hbytes Nat.one_pos (hfit r hr)
    | pending | overwritten seen | lost => exact hout

/-- Nothing is taken exactly when the first record is not there. -/
theorem collect_eq_nil (maxBytes : ℕ) (hpos : 0 < maxRecords)
    (hr : ∀ r, ring.readRecord cursor ≠ .item r) :
    (ring.collect cursor maxRecords maxBytes []).1.count = 0 ∧
      (ring.collect cursor maxRecords maxBytes []).2 = [] := by
  obtain ⟨left, rfl⟩ := Nat.exists_eq_succ_of_ne_zero hpos.ne'
  rw [collect, collectLoop, Nat.add_zero]
  cases h : ring.readRecord cursor with
  | item r => exact absurd h (hr r)
  | pending | overwritten seen | lost => exact ⟨rfl, rfl⟩

/-! ## The loop of `collect_lingering` -/

/-- What the loop of `collect_lingering` holds when it goes around: one record at least, and no
record too many. -/
structure Lingers (maxRecords : ℕ) (got : Collected × List Record) : Prop where
  count : got.2.length = got.1.count
  pos : 0 < got.1.count
  le : got.1.count ≤ maxRecords

theorem Lingers.more {got : Collected × List Record} (h : Lingers maxRecords got) :
    Lingers maxRecords (ring.collectMore cursor maxRecords maxBytes got) := by
  obtain ⟨rs, hout, hcount, hle, -⟩ := collectLoop_keeps ring (cursor + got.1.count) maxBytes
    (maxRecords - got.1.count) 0 got.2
  rw [Nat.zero_add] at hcount
  have hmax := h.le
  refine ⟨?_, ?_, ?_⟩
  · simp only [collectMore, collect]
    rw [hout, hcount, List.length_append, h.count]
  · exact Nat.add_pos_left h.pos _
  · simp only [collectMore, collect]
    rw [hcount]
    omega

/-- The frame is not full: there is room for a record, and it is shorter than the budget. -/
theorem room_of_not_full {got : Collected × List Record}
    (h : got.1.full maxRecords maxBytes got.2 = false) :
    got.1.count < maxRecords ∧ wireLen got.2 < maxBytes := by
  simp only [Collected.full, decide_eq_false_iff_not, not_or] at h
  exact ⟨Nat.not_le.mp h.1, Nat.not_le.mp h.2.1⟩

theorem lingerOver_of_full {got : Collected × List Record} (later : List (SourceRing w))
    (h : got.1.full maxRecords maxBytes got.2 = true) :
    lingerOver cursor maxRecords maxBytes later got = got := by
  cases later with
  | nil => rfl
  | cons ring later => rw [lingerOver, if_pos h]

/-- A frame longer than its budget is full. -/
theorem full_of_long {got : Collected × List Record} (h : maxBytes < wireLen got.2) :
    got.1.full maxRecords maxBytes got.2 = true := by
  simp only [Collected.full, decide_eq_true_eq]
  exact .inr (.inl h.le)

/-- A call of `collect` that starts with a record that is too long takes it all the same, and the
frame is over its budget for good. -/
theorem not_withinBudget_of_long {got : Collected × List Record} {r : Record}
    (h : Lingers maxRecords got) (hroom : got.1.count < maxRecords)
    (hr : ring.readRecord (cursor + got.1.count) = .item r)
    (hlong : maxBytes < wireLen (got.2 ++ [r])) (later : List (SourceRing w)) :
    ¬ WithinBudget maxRecords maxBytes (lingerOver cursor maxRecords maxBytes later
      (ring.collectMore cursor maxRecords maxBytes got)).2 := by
  have hmore : (ring.collectMore cursor maxRecords maxBytes got).2 = got.2 ++ [r] := by
    simp only [collectMore]
    rw [collect_of_long (Nat.sub_pos_of_lt hroom) hr hlong.le]
  rw [lingerOver_of_full later (full_of_long (by rw [hmore]; exact hlong)), hmore]
  intro hwithin
  have hcount := h.count
  have hpos := h.pos
  rcases hwithin.bytes with hle | hone
  · omega
  · rw [List.length_append, List.length_singleton] at hone
    omega

/-- The loop of `collect_lingering` keeps to the budget exactly when every call of `collect` starts
with a record that fits. -/
theorem lingerOver_iff (cursor maxRecords maxBytes : ℕ) :
    ∀ (later : List (SourceRing w)) (got : Collected × List Record), Lingers maxRecords got →
      WithinBudget maxRecords maxBytes got.2 →
      (WithinBudget maxRecords maxBytes (lingerOver cursor maxRecords maxBytes later got).2 ↔
        Fits cursor maxRecords maxBytes later got) := by
  -- induction on the rounds; a round that starts with too long a record never comes back
  intro later
  induction later with
  | nil =>
    intro got _ hwithin
    exact iff_of_true hwithin trivial
  | cons ring later ih =>
    intro got h hwithin
    cases hfull : got.1.full maxRecords maxBytes got.2 with
    | true =>
      rw [lingerOver_of_full _ hfull]
      refine iff_of_true hwithin fun _ hnot => ?_
      rw [hfull] at hnot
      cases hnot
    | false =>
      obtain ⟨hroom, hshort⟩ := room_of_not_full hfull
      rw [lingerOver, if_neg (by rw [hfull]; exact Bool.false_ne_true)]
      constructor
      · intro hend _ _
        have hfit : ∀ r, ring.readRecord (cursor + got.1.count) = .item r →
            wireLen (got.2 ++ [r]) ≤ maxBytes := by
          intro r hr
          by_contra hlong
          exact not_withinBudget_of_long h hroom hr (Nat.not_le.mp hlong) later hend
        refine ⟨hfit, (ih _ h.more ⟨.inl (collect_bytes hshort.le hfit), ?_⟩).mp hend⟩
        rw [h.more.count]
        exact h.more.le
      · intro hfits
        obtain ⟨hfit, hlater⟩ := hfits h.pos hfull
        refine (ih _ h.more ⟨.inl (collect_bytes hshort.le hfit), ?_⟩).mpr hlater
        rw [h.more.count]
        exact h.more.le

/-- The first call of `collect` keeps to the budget once it has taken a record. -/
theorem collect_withinBudget {r : Record} (maxBytes : ℕ) (hpos : 0 < maxRecords)
    (hr : ring.readRecord cursor = .item r) :
    Lingers maxRecords (ring.collect cursor maxRecords maxBytes []) ∧
      WithinBudget maxRecords maxBytes (ring.collect cursor maxRecords maxBytes []).2 := by
  obtain ⟨left, rfl⟩ := Nat.exists_eq_succ_of_ne_zero hpos.ne'
  rw [collect, collectLoop, Nat.add_zero, hr]
  simp only [collectTurn, Nat.lt_irrefl, false_and, if_false, List.nil_append]
  by_cases hfull : maxBytes ≤ wireLen [r]
  · rw [if_pos hfull]
    exact ⟨⟨rfl, Nat.one_pos, Nat.le_add_left 1 left⟩, .inr rfl, Nat.le_add_left 1 left⟩
  · obtain ⟨rs, hout, hcount, hle, hbytes⟩ := collectLoop_keeps ring cursor maxBytes left 1 [r]
    rw [if_neg hfull]
    have hlen : ([r] ++ rs).length = 1 + rs.length := by
      rw [List.length_append, List.length_singleton]
    refine ⟨⟨?_, ?_, ?_⟩, .inl ?_, ?_⟩
    · simp only [hout, hcount, hlen]
    · simp only [hcount]
      omega
    · simp only [hcount]
      omega
    · simp only [hout]
      exact hbytes Nat.one_pos (Nat.not_le.mp hfull).le
    · simp only [hout, hlen]
      omega

/-- **A lingering frame keeps to its budget exactly when every call of `collect` but the first
finds, where the frame ends, no record that is too long for what is left of the budget.** Apart
from that the budget only has to hold the header, unless the first record is there. -/
theorem withinBudget_iff (ring : SourceRing w) (later : List (SourceRing w))
    (cursor maxBytes : ℕ) (hpos : 1 ≤ maxRecords) :
    WithinBudget maxRecords maxBytes
        (ring.collectLingeringOver later cursor maxRecords maxBytes).2 ↔
      (frameHeaderLen ≤ maxBytes ∨ ∃ r, ring.readRecord cursor = .item r) ∧
        Fits cursor maxRecords maxBytes later (ring.collect cursor maxRecords maxBytes []) := by
  by_cases hread : ∃ r, ring.readRecord cursor = .item r
  · obtain ⟨r, hr⟩ := hread
    -- a first record: the rounds decide
    obtain ⟨hlingers, hwithin⟩ := collect_withinBudget maxBytes hpos hr
    have hiff := lingerOver_iff cursor maxRecords maxBytes later _ hlingers hwithin
    have hover : ring.collectLingeringOver later cursor maxRecords maxBytes =
        lingerOver cursor maxRecords maxBytes later
          (ring.collect cursor maxRecords maxBytes []) := by
      unfold collectLingeringOver
      simp only [hlingers.pos.ne', false_or]
      split_ifs with hfull
      · exact (lingerOver_of_full later hfull).symm
      · rfl
    rw [hover, hiff]
    exact ⟨fun hfits => ⟨.inr ⟨r, hr⟩, hfits⟩, fun h => h.2⟩
  -- nothing at the cursor: the frame is the header alone
  · obtain ⟨hcount, hout⟩ := collect_eq_nil maxBytes hpos
      fun r hr => hread ⟨r, hr⟩
    have hover : (ring.collectLingeringOver later cursor maxRecords maxBytes).2 = [] := by
      unfold collectLingeringOver
      simp only [hcount, true_or, if_true, hout]
    have hfits : Fits cursor maxRecords maxBytes later
        (ring.collect cursor maxRecords maxBytes []) := by
      cases later with
      | nil => trivial
      | cons _ _ => exact fun hlt => absurd hcount hlt.ne'
    rw [hover]
    constructor
    · intro hwithin
      refine ⟨.inl ?_, hfits⟩
      rcases hwithin.bytes with hle | hone
      · exact hle
      · cases hone
    · rintro ⟨hheader | hitem, -⟩
      · exact ⟨.inl hheader, Nat.zero_le _⟩
      · exact absurd hitem hread

end SourceRing

/-- A ring with messages of eight bytes, of which `n` were pushed. -/
def pushedBytes (n : ℕ) : SourceRing 8 :=
  ⟨⟨2, isPowerOfTwo_two⟩,
    fun i => ⟨if i = 0 then (if 2 ≤ n then 2 else 0) else (if 1 ≤ n then 1 else 0), fun _ => 7⟩,
    n, none, false, false⟩

/-- Two records that are both there when the loop goes around, in a budget for both. -/
theorem withinBudget_two : WithinBudget 4 32
    ((pushedBytes 1).collectLingeringOver [pushedBytes 2] 1 4 32).2 := by
  refine (SourceRing.withinBudget_iff (pushedBytes 1) [pushedBytes 2] 1 32 (by decide)).mpr
    ⟨.inl (by decide), fun _ _ => ⟨fun r hr => ?_, trivial⟩⟩
  cases hr
  decide

/-- **A frame with two records exceeds its budget.** The second record is pushed while the loop
lingers, and the call of `collect` that finds it takes it because it has taken none itself. -/
theorem lingering_exceeds_budget :
    ((pushedBytes 1).collectLingeringOver [pushedBytes 2] 1 4 31).1.count = 2 ∧
    wireLen ((pushedBytes 1).collectLingeringOver [pushedBytes 2] 1 4 31).2 = 32 ∧
    ¬ WithinBudget 4 31 ((pushedBytes 1).collectLingeringOver [pushedBytes 2] 1 4 31).2 := by
  refine ⟨by decide, by decide, fun h => ?_⟩
  rcases h.bytes with hle | hone
  · exact absurd hle (by decide)
  · exact absurd hone (by decide)

end Ringfire
