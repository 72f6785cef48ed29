import Ringfire.Replication.Gather
import Ringfire.Replication.Mirror

/-!
# Where a mirror starts

`MirrorBuilder::connect` and the part of `serve_client` that answers it. The mirror takes over the
ring file at its path if it is asked to resume, sends the first sequence it wants in a `HELLO`, and
the source answers with a `GEOMETRY` that carries the first sequence it will send and a flag when
the wanted sequence is ahead of it. Then the mirror keeps the ring it took over, or creates a new
one.

The two sides are one step here, taken when the source loads `write_seq`: before it the mirror only
reads its own file, after it the source only reads its ring.

## Main definitions

* `MirrorRing.adopt`, `wanted`, `position`, `connectRing`
* `connect`: the whole exchange

## Main results

* `le_connect_first`: the first sequence sent is not below the write position of the mirror
* `connect_reset_iff`: the mirror starts over exactly when it is ahead of `write_seq`
-/

namespace Ringfire

variable {ρ : Type} {w : ℕ}

/-- Where a mirror starts. -/
inductive MirrorStart where
  | latest
  | oldest
  | resume
  | sequence (seq : ℕ)
  deriving DecidableEq, Repr

/-- `HELLO_LATEST`. -/
def helloLatest : ℕ := 0

/-- `HELLO_OLDEST`. -/
def helloOldest : ℕ := u64Max

/-- What is at the path of the mirror: nothing `adopt` can use, a ring with the layout of the
source, or a ring with another layout. -/
inductive RingFile (w : ℕ) where
  | absent
  | mirror (ring : MirrorRing w)
  | other (writeSeq : ℕ)

/-- `adopt`: the write position is where `write_seq` left off. The log starts anew. -/
def MirrorRing.adopt (ring : MirrorRing w) : MirrorRing w :=
  { ring with
    nextSeq := ring.writeSeq + 1
    arena := { ring.arena with granted := [], written := [] }
    log := [] }

/-- The write position of the ring that `adopt` takes over. -/
def RingFile.nextSeq : RingFile w → Option ℕ
  | .absent => none
  | .mirror ring => some ring.adopt.nextSeq
  | .other writeSeq => some (writeSeq + 1)

/-- The first sequence the mirror asks for. -/
def wanted (start : MirrorStart) (file : RingFile w) : ℕ :=
  match start with
  | .latest => helloLatest
  | .oldest => helloOldest
  | .sequence seq => max seq 1
  | .resume => file.nextSeq.getD helloOldest

/-- The positioning of `serve_client`: the first sequence it will send, and `GEOMETRY_RESET`. -/
def position (writeSeq : ℕ) (cap : Capacity) (wanted : ℕ) : ℕ × Bool :=
  if wanted = helloLatest then (writeSeq + 1, false)
  else if wanted = helloOldest then (oldestRetained writeSeq cap.val, false)
  else if writeSeq + 1 < wanted then (writeSeq + 1, true)
  else (max wanted (oldestRetained writeSeq cap.val), false)

/-- The ring a mirror ends up with, and whether it is the one that was there. -/
def connectRing (start : MirrorStart) (file : RingFile w) (first : ℕ) (reset : Bool) :
    MirrorRing w × Bool :=
  match start, file with
  | .resume, .mirror ring =>
    if reset then ((MirrorRing.create w).skipTo first, false) else (ring.adopt, true)
  | _, _ => ((MirrorRing.create w).skipTo first, false)

/-- A mirror as `connect` leaves it. -/
structure Connected (w : ℕ) where
  /-- The write position of the ring that was taken over. -/
  adopted : Option ℕ
  ring : MirrorRing w
  /-- `first_seq`: the first sequence the source agreed to send. -/
  first : ℕ
  resumed : Bool
  reset : Bool

/-- `connect` to a source that shows `writeSeq`. -/
def connect (cap : Capacity) (writeSeq : ℕ) (start : MirrorStart) (file : RingFile w) :
    Connected w :=
  let (first, reset) := position writeSeq cap (wanted start file)
  let (ring, resumed) := connectRing start file first reset
  ⟨if start = .resume then file.nextSeq else none, ring, first, resumed, reset⟩

section

variable {cap : Capacity} {writeSeq : ℕ} {start : MirrorStart} {file : RingFile w}

theorem position_pos (writeSeq : ℕ) (cap : Capacity) (wanted : ℕ) :
    1 ≤ (position writeSeq cap wanted).1 := by
  have hone := one_le_oldestRetained writeSeq cap.val
  unfold position
  split_ifs
  · exact Nat.succ_pos _
  · exact hone
  · exact Nat.succ_pos _
  · exact hone.trans (le_max_right _ _)

/-- The source never starts beyond what it has published. -/
theorem position_le (writeSeq : ℕ) (cap : Capacity) (wanted : ℕ) :
    (position writeSeq cap wanted).1 ≤ writeSeq + 1 := by
  have hold : oldestRetained writeSeq cap.val ≤ writeSeq + 1 := by
    rw [oldestRetained_le (Nat.succ_pos _)]
    have hcap := cap.pos
    omega
  unfold position
  split_ifs with _ _ hahead
  · exact le_refl _
  · exact hold
  · exact le_refl _
  · exact max_le (Nat.not_lt.mp hahead) hold

theorem create_skipTo_nextSeq {first : ℕ} (h : 1 ≤ first) :
    ((MirrorRing.create w).skipTo first).nextSeq = first := by
  unfold MirrorRing.skipTo
  split_ifs with hlt
  · rfl
  · exact le_antisymm h (Nat.not_lt.mp hlt)

/-- The answer to a mirror that asks for a sequence. -/
theorem position_eq {wanted : ℕ} (hpos : 1 ≤ wanted) (hlt : wanted < helloOldest) :
    position writeSeq cap wanted =
      if writeSeq + 1 < wanted then (writeSeq + 1, true)
      else (max wanted (oldestRetained writeSeq cap.val), false) := by
  have hlatest : wanted ≠ helloLatest := Nat.ne_of_gt hpos
  rw [position, if_neg hlatest, if_neg (Nat.ne_of_lt hlt)]

/-- The write positions of a ring file fit in a `u64` and are no `HELLO_OLDEST`. -/
def RingFile.Fits (file : RingFile w) : Prop := ∀ next, file.nextSeq = some next → next < helloOldest

/-- **The first sequence sent is not below the write position of the mirror.** -/
theorem le_connect_first (cap : Capacity) (writeSeq : ℕ) (start : MirrorStart) (hfile : file.Fits) :
    (connect cap writeSeq start file).ring.nextSeq ≤ (connect cap writeSeq start file).first := by
  have hcreate : ((MirrorRing.create w).skipTo
      (position writeSeq cap (wanted start file)).1).nextSeq ≤
        (position writeSeq cap (wanted start file)).1 :=
    (create_skipTo_nextSeq (position_pos _ _ _)).le
  simp only [connect, connectRing]
  split
  · next ring =>
    split_ifs with hreset
    · exact hcreate
    · -- the ring taken over asked for its write position and was not ahead
      have hwanted : wanted .resume (.mirror ring) = ring.adopt.nextSeq := rfl
      have hpos : 1 ≤ ring.adopt.nextSeq := Nat.succ_pos _
      rw [hwanted, position_eq hpos (hfile _ rfl)] at hreset ⊢
      split_ifs at hreset ⊢
      · exact absurd rfl hreset
      · exact le_max_left _ _
  · exact hcreate

/-- A mirror starts with nothing written, in a fresh ring or in the one it took over. -/
theorem connect_ring (cap : Capacity) (writeSeq : ℕ) (start : MirrorStart) (file : RingFile w) :
    (connect cap writeSeq start file).ring.log = [] ∧
      ((connect cap writeSeq start file).ring.writeSeq = 0 ∨
        ∃ ring, file = .mirror ring ∧
          (connect cap writeSeq start file).ring.writeSeq = ring.writeSeq) := by
  have hcreate (first : ℕ) : ((MirrorRing.create w).skipTo first).log = [] ∧
      ((MirrorRing.create w).skipTo first).writeSeq = 0 := by
    unfold MirrorRing.skipTo
    split_ifs <;> exact ⟨rfl, rfl⟩
  simp only [connect, connectRing]
  split
  · next ring =>
    split_ifs
    · exact ⟨(hcreate _).1, .inl (hcreate _).2⟩
    · exact ⟨rfl, .inr ⟨ring, rfl, rfl⟩⟩
  · exact ⟨(hcreate _).1, .inl (hcreate _).2⟩

/-- **A mirror of the source starts over exactly when it is ahead of `write_seq`.** -/
theorem connect_reset_iff {ring : MirrorRing w} (hfile : (RingFile.mirror ring).Fits) :
    (connect cap writeSeq .resume (.mirror ring)).reset = true ↔ writeSeq < ring.writeSeq := by
  have hlt : ring.writeSeq + 1 < helloOldest := hfile _ rfl
  simp only [connect, wanted, RingFile.nextSeq, Option.getD_some, MirrorRing.adopt]
  rw [position_eq (Nat.succ_pos _) hlt]
  split_ifs with hahead
  · exact ⟨fun _ => Nat.lt_of_succ_lt_succ hahead, fun _ => rfl⟩
  · exact ⟨fun h => absurd h (by decide), fun h => absurd (Nat.succ_lt_succ h) hahead⟩

/-- A ring that was taken over and is not ahead is kept. -/
theorem connect_of_not_reset {ring : MirrorRing w}
    (h : (connect cap writeSeq .resume (.mirror ring)).reset = false) :
    (connect cap writeSeq .resume (.mirror ring)).ring = ring.adopt ∧
      (connect cap writeSeq .resume (.mirror ring)).resumed = true := by
  simp only [connect, connectRing] at h ⊢
  rw [h]
  exact ⟨rfl, rfl⟩

end

end Ringfire
