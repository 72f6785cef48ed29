import Ringfire.Arena.Reserve
import Ringfire.Ring.Consumer
import Ringfire.Ring.Skip

/-!
# Resuming from a checkpoint

A consumer with an offset file stores the sequence it processed last, and a consumer that attaches
with the same file starts behind it. `OffsetCheckpoint` of `checkpoint.rs` is the file mapped into
memory; a stored sequence of zero means that nothing was ever committed, and then the start mode
given to `attach_with_options` decides. The process, the time of the last update and the name that
the file also holds are read by nothing here and left out.

The law of resuming: the new consumer starts at the cursor of the commit or at the oldest message
that is left, whichever is later, and counts as lapped what lies in between.

## Main definitions

* `OffsetCheckpoint.openOrCreate`, `OffsetCheckpoint.load`, `OffsetCheckpoint.save`
* `commitOffset`, `attachWithOptions`
* `Resumes`: the law of resuming

## Main results

* `resumes_iff`: when the law holds
-/

namespace Ringfire

variable {τ : Type}

/-! ## The offset file -/

/-- `SHM_OFFSET_MAGIC`. -/
def shmOffsetMagic : ℕ := 0x53484D5F4F464653

/-- `SHM_OFFSET_VERSION`. -/
def shmOffsetVersion : ℕ := 1

/-- What an offset file holds. -/
structure ShmOffsetSlot where
  magic : ℕ
  version : ℕ
  offsetSeq : ℕ
  deriving DecidableEq

/-- An offset file. -/
inductive OffsetFile where
  /-- There is no file, or it is shorter than a slot. -/
  | short
  | full (slot : ShmOffsetSlot)
  deriving DecidableEq

/-- Why an offset file is refused. -/
inductive OffsetError where
  | invalidMagic (expected actual : ℕ)
  | versionMismatch (expected actual : ℕ)
  deriving DecidableEq

/-- An offset file that was opened. -/
structure OffsetCheckpoint where
  slot : ShmOffsetSlot
  magic_eq : slot.magic = shmOffsetMagic
  version_eq : slot.version = shmOffsetVersion

namespace OffsetCheckpoint

/-- `open_or_create`. -/
def openOrCreate : OffsetFile → Except OffsetError OffsetCheckpoint
  | .short => .ok ⟨⟨shmOffsetMagic, shmOffsetVersion, 0⟩, rfl, rfl⟩
  | .full slot =>
    if hm : slot.magic = shmOffsetMagic then
      if hv : slot.version = shmOffsetVersion then .ok ⟨slot, hm, hv⟩
      else .error (.versionMismatch shmOffsetVersion slot.version)
    else .error (.invalidMagic shmOffsetMagic slot.magic)

/-- `load`: nothing was committed while the stored sequence is zero. -/
def load (cp : OffsetCheckpoint) : Option ℕ :=
  if cp.slot.offsetSeq = 0 then none else some cp.slot.offsetSeq

/-- `save`. -/
def save (cp : OffsetCheckpoint) (seq : ℕ) : OffsetCheckpoint :=
  ⟨{ cp.slot with offsetSeq := seq }, cp.magic_eq, cp.version_eq⟩

/-- The file of a checkpoint can be opened again. -/
theorem openOrCreate_slot (cp : OffsetCheckpoint) : openOrCreate (.full cp.slot) = .ok cp := by
  rw [openOrCreate, dif_pos cp.magic_eq, dif_pos cp.version_eq]

end OffsetCheckpoint

/-! ## Committing and attaching -/

/-- `last_processed_sequence`. -/
def lastProcessedSequence (cursor : ℕ) : ℕ := cursor - 1

/-- `commit_offset`, with the cursor it stores in the registry. -/
def commitOffset (checkpoint : Option OffsetCheckpoint) (registered : Bool) (cursor : ℕ) :
    Except RingfireError (OffsetCheckpoint × Option ℕ) :=
  match checkpoint with
  | some cp =>
    .ok (cp.save (lastProcessedSequence cursor), if registered then some cursor else none)
  | none => .error .noOffsetFileConfigured

/-- `ConsumerStartMode`. -/
inductive ConsumerStartMode where
  | latest
  | head
  | oldest
  | sequence (seq : ℕ)
  deriving DecidableEq

/-- The position a start mode names. -/
def ConsumerStartMode.position : ConsumerStartMode → StartPosition
  | latest => .latest
  | head => .head
  | oldest => .oldest
  | sequence seq => .sequence seq

/-- What becomes of the registration of a consumer. -/
inductive Registration where
  /-- The ring has no registry, or it is full and the ring is lossy. -/
  | without
  /-- The registry of a lossless ring is full. -/
  | refused
  /-- `write_seq` is loaded again once the consumer is registered. -/
  | registered (writeSeq : ℕ)

/-- The position a consumer with the checkpoint `cp` starts at. -/
def startPosition (mode : ConsumerStartMode) (cp : OffsetCheckpoint) : StartPosition :=
  match cp.load with
  | some saved => .checkpoint saved
  | none => mode.position

/-- An account that starts at a cursor. -/
def Account.start (start : ℕ × ℕ) : Account τ := ⟨start.1, start.2, [], [], []⟩

/-- The end of `attach_with_options`: the producer may have overwritten the start position between
computing it and registering. -/
def register (cap : Capacity) (a : Account τ) : Registration → Except RingfireError (Account τ)
  | .without => .ok a
  | .refused => .error .noAvailableReaderSlots
  | .registered writeSeq => .ok (a.skipOverwritten cap writeSeq 0).2

/-- `attach_with_options` on a ring whose header was found right, when `write_seq` was loaded;
`file` is the offset file if one is configured. -/
def attachWithOptions (cap : Capacity) (writeSeq : ℕ) (mode : ConsumerStartMode)
    (file : Option OffsetFile) (registration : Registration) :
    Except RingfireError (Option OffsetCheckpoint × Account τ) :=
  match file with
  | some file =>
    match OffsetCheckpoint.openOrCreate file with
    | .ok cp =>
      (register cap (.start (resolveStart cap writeSeq (startPosition mode cp))) registration).map
        fun a => (some cp, a)
    | .error _ => .error .io
  | none =>
    (register cap (.start (resolveStart cap writeSeq mode.position)) registration).map
      fun a => (none, a)

/-- The last `write_seq` loaded while attaching. -/
def Registration.writeSeq (writeSeq : ℕ) : Registration → ℕ
  | without | refused => writeSeq
  | registered later => later

/-- **The law of resuming**: the consumer starts at `cursor` or at the oldest message left,
whichever is later, and counts as lapped what lies in between. -/
def Resumes (cursor oldest : ℕ)
    (r : Except RingfireError (Option OffsetCheckpoint × Account τ)) : Prop :=
  ∃ cp a, r = .ok (some cp, a) ∧ a.cursor = max cursor oldest ∧ a.lappedTotal = oldest - cursor

/-- The start mode leads to the first message as well, or counts it as lapped. -/
def ConsumerStartMode.StartsAtOne (cap : Capacity) (writeSeq : ℕ) : ConsumerStartMode → Prop
  | latest => writeSeq ≤ 1
  | head => writeSeq = 0
  | oldest => writeSeq ≤ cap.val
  | sequence seq => seq ≤ 1

/-! ## When the law holds -/

/-- No consumer starts at a message that is gone. -/
theorem oldestRetained_le_resolveStart (cap : Capacity) (writeSeq : ℕ) (pos : StartPosition) :
    oldestRetained writeSeq cap.val ≤ (resolveStart cap writeSeq pos).1 := by
  have hcap := cap.pos
  cases pos with
  | latest =>
    simp only [resolveStart, oldestRetained]
    split_ifs <;> omega
  | head =>
    simp only [resolveStart, oldestRetained]
    split_ifs <;> omega
  | oldest => exact le_refl _
  | sequence seq | checkpoint saved =>
    simp only [resolveStart]
    split_ifs with hlt
    · exact le_refl _
    · exact Nat.not_lt.mp hlt

/-- Where a consumer ends up that was to start at `cursor` with `lapped` messages lost: the last
look at `write_seq` may have moved it on. -/
theorem register_start {cap : Capacity} {writeSeq cursor : ℕ} (lapped : ℕ) {reg : Registration}
    (hreg : reg ≠ .refused) (hstart : oldestRetained writeSeq cap.val ≤ cursor) :
    ∃ a : Account τ, register cap (.start (cursor, lapped)) reg = .ok a ∧
      a.cursor = max cursor (oldestRetained (reg.writeSeq writeSeq) cap.val) ∧
      a.lappedTotal =
        lapped + (oldestRetained (reg.writeSeq writeSeq) cap.val - cursor) := by
  cases reg with
  | without =>
    refine ⟨_, rfl, (max_eq_left hstart).symm, ?_⟩
    rw [Registration.writeSeq, Nat.sub_eq_zero_of_le hstart]
    rfl
  | refused => exact absurd rfl hreg
  | registered later =>
    refine ⟨_, rfl, ?_⟩
    simp only [Account.skipOverwritten, Account.start, Registration.writeSeq, Nat.max_zero]
    split_ifs with hlt
    · exact ⟨(max_eq_right hlt.le).symm, rfl⟩
    · have hle := Nat.not_lt.mp hlt
      exact ⟨(max_eq_left hle).symm, by rw [Nat.sub_eq_zero_of_le hle, Nat.add_zero]⟩

/-- The law, in terms of where the consumer was to start. -/
theorem resumes_iff_start {cap : Capacity} {writeSeq cursor : ℕ} {mode : ConsumerStartMode}
    {reg : Registration} (hreg : reg ≠ .refused) (cp : OffsetCheckpoint) :
    Resumes cursor (oldestRetained (reg.writeSeq writeSeq) cap.val)
        (attachWithOptions (τ := τ) cap writeSeq mode (some (.full cp.slot)) reg) ↔
      max (resolveStart cap writeSeq (startPosition mode cp)).1
          (oldestRetained (reg.writeSeq writeSeq) cap.val) =
        max cursor (oldestRetained (reg.writeSeq writeSeq) cap.val) ∧
      (resolveStart cap writeSeq (startPosition mode cp)).2 +
          (oldestRetained (reg.writeSeq writeSeq) cap.val -
            (resolveStart cap writeSeq (startPosition mode cp)).1) =
        oldestRetained (reg.writeSeq writeSeq) cap.val - cursor := by
  have hstart := oldestRetained_le_resolveStart cap writeSeq (startPosition mode cp)
  obtain ⟨a, ha, hcursor, hlapped⟩ :=
    register_start (τ := τ) (resolveStart cap writeSeq (startPosition mode cp)).2 hreg hstart
  have hattach : attachWithOptions (τ := τ) cap writeSeq mode (some (.full cp.slot)) reg =
      .ok (some cp, a) := by
    simp only [attachWithOptions, cp.openOrCreate_slot]
    rw [ha]
    rfl
  rw [← hcursor, ← hlapped, hattach]
  constructor
  · rintro ⟨_, _, heq, h⟩
    cases heq
    exact h
  · exact fun h => ⟨cp, a, rfl, h⟩

/-- A commit behind the first message is found again. -/
theorem startPosition_of_two_le {cursor : ℕ} (h : 2 ≤ cursor) (mode : ConsumerStartMode)
    (cp : OffsetCheckpoint) :
    startPosition mode (cp.save (lastProcessedSequence cursor)) = .checkpoint (cursor - 1) := by
  have hne : ¬ cursor - 1 = 0 := by omega
  have hload : (cp.save (lastProcessedSequence cursor)).load = some (cursor - 1) := if_neg hne
  rw [startPosition, hload]

/-- A commit in front of the first message looks like no commit. -/
theorem startPosition_of_one (mode : ConsumerStartMode) (cp : OffsetCheckpoint) :
    startPosition mode (cp.save (lastProcessedSequence 1)) = mode.position :=
  rfl

/-- Where a start mode leads when the law asks for the first message. -/
theorem startsAtOne_iff {cap : Capacity} {writeSeq oldest : ℕ} (mode : ConsumerStartMode)
    (holdest : oldestRetained writeSeq cap.val ≤ oldest) :
    (max (resolveStart cap writeSeq mode.position).1 oldest = max 1 oldest ∧
      (resolveStart cap writeSeq mode.position).2 +
          (oldest - (resolveStart cap writeSeq mode.position).1) = oldest - 1) ↔
      mode.StartsAtOne cap writeSeq := by
  have hone := one_le_oldestRetained writeSeq cap.val
  cases mode with
  | latest =>
    simp only [ConsumerStartMode.position, resolveStart, ConsumerStartMode.StartsAtOne]
    omega
  | head =>
    simp only [ConsumerStartMode.position, resolveStart, ConsumerStartMode.StartsAtOne]
    omega
  | oldest =>
    have hcap : oldestRetained writeSeq cap.val ≤ 1 ↔ writeSeq < 1 + cap.val :=
      oldestRetained_le (le_refl 1)
    simp only [ConsumerStartMode.position, resolveStart, ConsumerStartMode.StartsAtOne]
    omega
  | sequence seq =>
    simp only [ConsumerStartMode.position, resolveStart, ConsumerStartMode.StartsAtOne]
    split_ifs <;> omega

/-- What was committed behind the first message is taken up, whatever the start mode. -/
theorem resumes_of_two_le {cap : Capacity} {cursor writeSeq : ℕ} (hcursor : 2 ≤ cursor)
    (cp : OffsetCheckpoint) {reg : Registration} (hreg : reg ≠ .refused)
    (hgrows : writeSeq ≤ reg.writeSeq writeSeq) (mode : ConsumerStartMode) :
    Resumes cursor (oldestRetained (reg.writeSeq writeSeq) cap.val)
      (attachWithOptions (τ := τ) cap writeSeq mode
        (some (.full (cp.save (lastProcessedSequence cursor)).slot)) reg) := by
  have holdest := oldestRetained_mono hgrows cap.val
  have hone : 1 ≤ cursor := by omega
  rw [resumes_iff_start hreg, startPosition_of_two_le hcursor]
  simp only [resolveStart, Nat.sub_add_cancel hone]
  split_ifs <;> omega

/-- **Resuming takes up where the commit was made exactly when the commit lies behind the first
message or the start mode leads to the first message as well.** The consumer committed at
`cursor`, any number of messages were pushed, and the ring may be written while it is attached to
again. -/
theorem resumes_iff {cap : Capacity} {cursor writeSeq : ℕ} (hcursor : 1 ≤ cursor)
    {cp cp' : OffsetCheckpoint} {stored : Option ℕ} {registered : Bool}
    (hcommit : commitOffset (some cp) registered cursor = .ok (cp', stored))
    {reg : Registration} (hreg : reg ≠ .refused) (hgrows : writeSeq ≤ reg.writeSeq writeSeq)
    (mode : ConsumerStartMode) :
    Resumes cursor (oldestRetained (reg.writeSeq writeSeq) cap.val)
        (attachWithOptions (τ := τ) cap writeSeq mode (some (.full cp'.slot)) reg) ↔
      2 ≤ cursor ∨ mode.StartsAtOne cap writeSeq := by
  cases hcommit
  rcases Nat.lt_or_ge cursor 2 with hlt | hge
  · obtain rfl : cursor = 1 := by omega
    rw [resumes_iff_start hreg, startPosition_of_one,
      startsAtOne_iff mode (oldestRetained_mono hgrows cap.val)]
    exact ⟨.inr, fun h => h.resolve_left (by decide)⟩
  · exact iff_of_true (resumes_of_two_le hge cp hreg hgrows mode) (.inl hge)

/-- A ring of eight slots. -/
def eightSlots : Capacity := ⟨8, isPowerOfTwo_eight⟩

/-- A new offset file. -/
def newOffset : OffsetCheckpoint := ⟨⟨shmOffsetMagic, shmOffsetVersion, 0⟩, rfl, rfl⟩

/-- Message `1` was processed, `20` messages are there when the consumer comes back, and the
messages up to `12` are gone. -/
theorem resumes_twelfth :
    Resumes 2 13 (attachWithOptions (τ := Unit) eightSlots 20 .latest
      (some (.full (newOffset.save 1).slot)) (.registered 20)) := by
  have hcommit : commitOffset (some newOffset) true 2 = .ok (newOffset.save 1, some 2) := rfl
  exact (resumes_iff (by decide : 1 ≤ 2) hcommit (by rintro ⟨⟩) (le_refl 20) .latest).mpr
    (.inl (le_refl 2))

/-- **A commit before the first message is forgotten.** The consumer committed at cursor `1`, three
messages were pushed, and the consumer that comes back with the default mode starts at message
`3`: two messages are skipped and none counts as lapped. -/
theorem commit_at_one_forgotten :
    ∃ cp', commitOffset (some newOffset) false 1 = .ok (cp', none) ∧
      (attachWithOptions (τ := Unit) eightSlots 3 .latest (some (.full cp'.slot)) .without).map
        (fun r => (r.2.cursor, r.2.lappedTotal)) = .ok (3, 0) ∧
      oldestRetained 3 eightSlots.val = 1 ∧
      ¬ Resumes 1 1
        (attachWithOptions (τ := Unit) eightSlots 3 .latest (some (.full cp'.slot)) .without) := by
  refine ⟨_, rfl, rfl, rfl, ?_⟩
  rintro ⟨cp, a, h, hcursor, -⟩
  cases h
  cases hcursor

end Ringfire
