import Ringfire.Replication.Handshake
import Ringfire.Ring.Checkpoint

/-!
# Reconnecting

The loop of `cmd_mirror`: it connects, mirrors until the connection ends, waits and connects again.
`--from` says where the first connection starts; from then on the mirror continues where its ring
stopped. The loop sets the start mode after every attempt, also after one that failed.

What is at the path of the mirror may be different at each attempt, and so may the source.

## Main definitions

* `cmdMirror`: the attempts of the loop
* `StartSurvives`: the first connection starts where it was told to

## Main results

* `startSurvives_iff`: when it does
* `request_iff`: when the first connection asks for and takes over what it would have
-/

namespace Ringfire

variable {w : ℕ}

/-- An attempt to connect: the file at the path, and what the source was if it succeeds. -/
inductive ConnectAttempt (w : ℕ) where
  | failed (file : RingFile w)
  | connected (file : RingFile w) (cap : Capacity) (writeSeq : ℕ)

/-- What is at the path at the time of the attempt. -/
def ConnectAttempt.file : ConnectAttempt w → RingFile w
  | .failed file | .connected file _ _ => file

/-- What an attempt did. -/
structure Attempted (w : ℕ) where
  /-- The start mode that was given to the builder. -/
  start : MirrorStart
  /-- The position in the `HELLO`. -/
  requested : ℕ
  /-- The write position of the ring that was taken over. -/
  adopted : Option ℕ
  /-- The mirror, if the attempt succeeded. -/
  mirror : Option (Connected w)

/-- `MirrorBuilder::connect`. -/
def ConnectAttempt.run (start : MirrorStart) (a : ConnectAttempt w) : Attempted w where
  start := start
  requested := wanted start a.file
  adopted := if start = .resume then a.file.nextSeq else none
  mirror :=
    match a with
    | .failed _ => none
    | .connected file cap writeSeq => some (connect cap writeSeq start file)

/-- The loop of `cmd_mirror`. -/
def cmdMirror (once : Bool) : MirrorStart → List (ConnectAttempt w) → List (Attempted w)
  | _, [] => []
  | start, a :: as => a.run start :: if once then [] else cmdMirror once .resume as

/-- The attempts at the files `before` fail, then one succeeds. -/
def firstConnection (before : List (RingFile w)) (file : RingFile w) (cap : Capacity)
    (writeSeq : ℕ) (later : List (ConnectAttempt w)) : List (ConnectAttempt w) :=
  before.map .failed ++ .connected file cap writeSeq :: later

/-- The first connection asks for the position that the start mode stands for, and takes over a ring
only if that is to resume. -/
structure Attempted.Starts (configured : MirrorStart) (file : RingFile w) (x : Attempted w) :
    Prop where
  request : x.requested = wanted configured file
  adopts : x.adopted.isSome = true → configured = .resume

/-- **The start mode survives failed attempts**: it is used by every attempt up to the first
connection, which starts as it says, and only the attempts after it resume. -/
structure StartSurvives (configured : MirrorStart) (before : List (RingFile w))
    (file : RingFile w) (cap : Capacity) (writeSeq : ℕ) (later : List (ConnectAttempt w)) :
    Prop where
  starts : ∀ x,
    (cmdMirror false configured (firstConnection before file cap writeSeq later))[before.length]? =
      some x → x.Starts configured file
  keeps : ∀ x ∈ (cmdMirror false configured
    (firstConnection before file cap writeSeq later)).take (before.length + 1),
      x.start = configured
  resumes : ∀ x ∈ (cmdMirror false configured
    (firstConnection before file cap writeSeq later)).drop (before.length + 1), x.start = .resume

variable {start configured : MirrorStart} {before : List (RingFile w)} {file : RingFile w}
  {cap : Capacity} {writeSeq : ℕ} {later : List (ConnectAttempt w)}

/-! ## The loop -/

theorem cmdMirror_resume (as : List (ConnectAttempt w)) :
    cmdMirror false .resume as = as.map (ConnectAttempt.run .resume) := by
  induction as with
  | nil => rfl
  | cons a as ih =>
    rw [cmdMirror, List.map_cons, ← ih]
    rfl

/-- All attempts but the first one resume. -/
theorem cmdMirror_cons (start : MirrorStart) (a : ConnectAttempt w)
    (as : List (ConnectAttempt w)) :
    cmdMirror false start (a :: as) = a.run start :: as.map (ConnectAttempt.run .resume) := by
  rw [← cmdMirror_resume]
  rfl

theorem start_of_mem_drop {as : List (ConnectAttempt w)} {k : ℕ} {x : Attempted w}
    (h : x ∈ (cmdMirror false start as).drop (k + 1)) : x.start = .resume := by
  cases as with
  | nil => cases h
  | cons a as =>
    rw [cmdMirror_cons, List.drop_succ_cons] at h
    obtain ⟨a', -, rfl⟩ := List.mem_map.mp (List.mem_of_mem_drop h)
    rfl

/-- An attempt that starts as it was told to. -/
theorem run_starts (start : MirrorStart) (a : ConnectAttempt w) :
    (a.run start).Starts start a.file := by
  refine ⟨rfl, fun h => ?_⟩
  by_contra hne
  simp only [ConnectAttempt.run, if_neg hne, Option.isSome_none, Bool.false_eq_true] at h

/-- The first connection was made with the start mode, or to resume. -/
theorem cmdMirror_first (configured : MirrorStart) (before : List (RingFile w))
    (file : RingFile w) (cap : Capacity) (writeSeq : ℕ) (later : List (ConnectAttempt w)) :
    (cmdMirror false configured (firstConnection before file cap writeSeq later))[before.length]? =
      some ((ConnectAttempt.connected file cap writeSeq).run
        (if before = [] then configured else .resume)) := by
  cases before with
  | nil => rfl
  | cons first before =>
    rw [firstConnection, List.map_cons, List.cons_append, cmdMirror_cons, if_neg (by simp),
      List.length_cons, List.getElem?_cons_succ, List.map_append, List.getElem?_append_right]
    · rw [List.length_map, List.length_map, Nat.sub_self]
      rfl
    · rw [List.length_map, List.length_map]

/-- **When the start mode survives**: when no attempt fails before the first connection, or the mode
is to resume anyway. -/
theorem startSurvives_iff (configured : MirrorStart) (before : List (RingFile w))
    (file : RingFile w) (cap : Capacity) (writeSeq : ℕ) (later : List (ConnectAttempt w)) :
    StartSurvives configured before file cap writeSeq later ↔
      before = [] ∨ configured = .resume := by
  constructor
  · intro h
    by_contra hcon
    obtain ⟨hne, hconf⟩ := not_or.mp hcon
    -- the first connection used `Resume`
    have hfirst := cmdMirror_first configured before file cap writeSeq later
    rw [if_neg hne] at hfirst
    have hmem : (ConnectAttempt.connected file cap writeSeq).run .resume ∈
        (cmdMirror false configured (firstConnection before file cap writeSeq later)).take
          (before.length + 1) := by
      apply List.mem_of_getElem? (i := before.length)
      rw [List.getElem?_take_of_lt (Nat.lt_succ_self _)]
      exact hfirst
    exact hconf (h.keeps _ hmem).symm
  · intro h
    have hstart : (if before = [] then configured else .resume) = configured := by
      rcases h with h | h
      · exact if_pos h
      · split_ifs
        · rfl
        · exact h.symm
    refine ⟨?_, ?_, ?_⟩
    · intro x hx
      rw [cmdMirror_first, hstart] at hx
      cases hx
      exact run_starts configured (.connected file cap writeSeq)
    · intro x hx
      rcases h with rfl | rfl
      · -- the first attempt succeeds
        rw [firstConnection, List.map_nil, List.nil_append, cmdMirror_cons, List.length_nil,
          List.take_succ_cons, List.take_zero, List.mem_singleton] at hx
        rw [hx]
        rfl
      · rw [cmdMirror_resume] at hx
        obtain ⟨a, -, rfl⟩ := List.mem_map.mp (List.mem_of_mem_take hx)
        rfl
    · intro x hx
      exact start_of_mem_drop hx

/-- What the source and the file at the path show of it: after a failed attempt, the first
connection asks for what it would have asked for and takes over no ring unless it is to resume,
only when nothing is there to resume from and the start mode asks for the oldest message. -/
theorem request_iff (hne : before ≠ []) {x : Attempted w}
    (hx : (cmdMirror false configured (firstConnection before file cap writeSeq later))[
      before.length]? = some x) :
    x.Starts configured file ↔
      configured = .resume ∨ (file.nextSeq = none ∧ wanted configured file = helloOldest) := by
  rw [cmdMirror_first, if_neg hne] at hx
  cases hx
  constructor
  · rintro ⟨hrequest, hadopts⟩
    cases hnext : file.nextSeq with
    | none =>
      refine .inr ⟨rfl, ?_⟩
      rw [← hrequest]
      simp only [ConnectAttempt.run, ConnectAttempt.file, wanted, hnext, Option.getD_none]
    | some next =>
      refine .inl (hadopts ?_)
      simp only [ConnectAttempt.run, ConnectAttempt.file, if_true, hnext, Option.isSome_some]
  · rintro (rfl | ⟨hnext, hwanted⟩)
    · exact run_starts .resume (.connected file cap writeSeq)
    · constructor
      · rw [hwanted]
        simp only [ConnectAttempt.run, ConnectAttempt.file, wanted, hnext, Option.getD_none]
      · intro h
        simp only [ConnectAttempt.run, ConnectAttempt.file, if_true, hnext, Option.isSome_none,
          Bool.false_eq_true] at h

/-- **A mirror that was started before its source.** It was told to mirror new messages only. The
first attempt finds no source; when the source is there, with `100` messages pushed to its ring, the
mirror asks for all that are left. -/
theorem latest_after_failure :
    ¬ StartSurvives .latest [(RingFile.absent : RingFile 1)] .absent eightSlots 100 [] ∧
      (cmdMirror false .latest (firstConnection [(RingFile.absent : RingFile 1)] .absent eightSlots
        100 []))[1]?.map (fun x => (x.requested, x.mirror.map (·.first))) =
          some (helloOldest, some 93) ∧
      wanted .latest (RingFile.absent : RingFile 1) = helloLatest ∧
      (connect eightSlots 100 .latest (RingFile.absent : RingFile 1)).first = 101 := by
  refine ⟨?_, by decide +kernel, rfl, rfl⟩
  intro h
  have hsecond := h.keeps _ (List.mem_of_getElem? (i := 1) rfl)
  cases hsecond

end Ringfire
