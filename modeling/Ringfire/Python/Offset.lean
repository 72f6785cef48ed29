import Ringfire.Python.Consumer
import Ringfire.Ring.OffsetBytes

/-!
# The offset file of the Python client

`RingConsumer` of `ring.py` keeps its offset in the same 64 bytes as `OffsetCheckpoint`: it packs
the first half of a new file in one go and stores the name as it was given, looks at the magic of
an old file and not at its version, and unpacks the sequence. A consumer in one language takes up
what a consumer in the other one left.

## Main definitions

* `Python.initOffsetShm`, `Python.loadOffset`, `Python.commitOffset`

## Main results

* `Python.initOffsetShm_eq_openRust`: a new file is the same in both languages, byte for byte, where
  the name has no white space around it
* `Python.offset_files_agree`: a commit in either language is taken up in either language
-/

namespace Ringfire

open ByteMemory LittleEndian OffsetBytes

namespace Python

/-- `struct.pack("<QIIQQ", SHM_OFFSET_MAGIC, SHM_OFFSET_VERSION, os.getpid(), 0, now)`. -/
def packHeader (pid now : ℕ) : List UInt8 :=
  toLe 8 shmOffsetMagic ++ toLe 4 shmOffsetVersion ++ toLe 4 pid ++ toLe 8 0 ++ toLe 8 now

/-- `_init_offset_shm`; `none` is a `ValueError`. -/
def initOffsetShm (f : OffsetBytes) (pid now : ℕ) (name : List Char) : Option OffsetBytes :=
  if f.len < shmOffsetSlotLen then
    -- the name is not trimmed
    some ⟨shmOffsetSlotLen,
      splice (splice f.byte 0 (packHeader pid now)) 32 (nameBytes (utf8 name))⟩
  -- the version is unpacked and not looked at
  else if f.magic = shmOffsetMagic then some f
  else none

/-- `_load_offset`, with a file that was opened. -/
def loadOffset (f : OffsetBytes) : ℕ := f.offsetSeq

/-- `commit_offset`, with a file that was opened; `none` is a `struct.error`. -/
def commitOffset (f : OffsetBytes) (cursor now : ℕ) : Option OffsetBytes :=
  if cursor - 1 < 2 ^ 64 then
    some { f with byte := store (store f.byte 16 8 (cursor - 1)) 24 8 now }
  else none

variable {f f' : OffsetBytes} {pid now : ℕ} {name : List Char}

/-- What Python makes of a new file. -/
theorem initOffsetShm_new (h : f.len < shmOffsetSlotLen) (pid now : ℕ) (name : List Char) :
    initOffsetShm f pid now name =
      some ⟨shmOffsetSlotLen, OffsetBytes.writeSlot pid now (utf8 name) f.byte⟩ := by
  have hheader : splice f.byte 0 (packHeader pid now) =
      store (store (store (store (store f.byte 0 8 shmOffsetMagic) 8 4 shmOffsetVersion) 12 4 pid)
        16 8 0) 24 8 now := by
    unfold packHeader
    simp only [splice_append, splice_toLe, List.length_append, length_toLe]
  rw [initOffsetShm, if_pos h, hheader]
  rfl

/-- **A new file is the same in both languages**, byte for byte, where the name has no white space
around it. -/
theorem initOffsetShm_eq_openRust (h : f.len < shmOffsetSlotLen) (pid now : ℕ)
    (hname : ∀ c, name.head? = some c ∨ name.getLast? = some c → isWhitespace c = false) :
    initOffsetShm f pid now name = f.openRust pid now name := by
  rw [initOffsetShm_new h, openRust, if_pos h, trim_eq_self hname]

/-- Python accepts what Rust accepts, and files of other versions. -/
theorem isSome_initOffsetShm :
    (initOffsetShm f pid now name).isSome ↔
      (f.openRust pid now name).isSome ∨
        shmOffsetSlotLen ≤ f.len ∧ f.magic = shmOffsetMagic ∧ f.version ≠ shmOffsetVersion := by
  unfold initOffsetShm openRust
  split_ifs with hlen hm hok hok
  · simp
  · simp
  · have hver : f.version ≠ shmOffsetVersion := fun hv => hok ⟨hm, hv⟩
    simpa [hm, hver] using Nat.not_lt.mp hlen
  · exact absurd hok.1 hm
  · simp [hm]

/-- What opening leaves, where Rust would open the file as well. -/
theorem initOffsetShm_valid (hf : f.len < shmOffsetSlotLen ∨ f.Valid)
    (h : initOffsetShm f pid now name = some f') : f'.Valid ∧ f'.committed = f.committed := by
  rcases hf with hlen | hvalid
  · rw [initOffsetShm_new hlen] at h
    cases h
    refine ⟨writeSlot_valid pid now _ f.byte, ?_⟩
    rw [writeSlot_committed, committed, if_pos hlen]
  · rw [initOffsetShm, if_neg (Nat.not_lt.mpr hvalid.len), if_pos hvalid.magic] at h
    cases h
    exact ⟨hvalid, rfl⟩

/-- A commit is the same in both languages. -/
theorem commitOffset_eq_save {cursor : ℕ} (h : cursor - 1 < 2 ^ 64) :
    commitOffset f cursor now = some (f.save (lastProcessedSequence cursor) now) :=
  if_pos h

/-- Behind a commit Python starts where Rust starts. -/
theorem startPosition_committed (cap : Capacity) (writeSeq : ℕ) (mode : StartMode) {saved : ℕ}
    (h : 0 < saved) :
    startPosition cap writeSeq (some saved) mode =
      some (resolveStart cap writeSeq (.checkpoint saved)) := by
  simp only [startPosition, Option.filter, decide_eq_true h, if_true, clampStart, resolveStart]

/-- The file behind a commit. -/
theorem file_save (h : f.Valid) {seq : ℕ} (hseq : seq < 2 ^ 64) (now : ℕ) :
    (f.save seq now).file = .full ⟨shmOffsetMagic, shmOffsetVersion, seq⟩ := by
  have hvalid := save_valid h seq now
  rw [hvalid.file, ← hvalid.committed, committed_save h hseq]

/-- **A commit is taken up in either language.** A consumer that processed messages up to `cursor`
commits; a consumer that attaches with the file starts at `cursor` or at the oldest message that is
left, whichever is later, and counts as lapped what lies in between, whatever the start modes. -/
theorem resumes_committed {τ : Type} (hvalid : f.Valid) {cursor : ℕ} (hcursor : 2 ≤ cursor)
    (hfits : cursor - 1 < 2 ^ 64) (now : ℕ) (cap : Capacity) {writeSeq : ℕ} (mode : StartMode)
    (rustMode : ConsumerStartMode) {reg : Registration} (hreg : reg ≠ .refused)
    (hgrows : writeSeq ≤ reg.writeSeq writeSeq) :
    ∃ g, commitOffset f cursor now = some g ∧ f.save (lastProcessedSequence cursor) now = g ∧
      startPosition cap writeSeq (some (loadOffset g)) mode =
        some (max cursor (oldestRetained writeSeq cap.val),
          oldestRetained writeSeq cap.val - cursor) ∧
      Resumes (τ := τ) cursor (oldestRetained (reg.writeSeq writeSeq) cap.val)
        (attachWithOptions cap writeSeq rustMode (some g.file) reg) := by
  refine ⟨_, commitOffset_eq_save hfits, rfl, ?_, ?_⟩
  · have hload : loadOffset (f.save (lastProcessedSequence cursor) now) = cursor - 1 := by
      rw [loadOffset, ← (save_valid hvalid _ now).committed]
      exact committed_save hvalid hfits now
    rw [hload, startPosition_committed cap writeSeq mode (by omega)]
    simp only [resolveStart, Nat.sub_add_cancel (by omega : 1 ≤ cursor)]
    split_ifs with hlt
    · rw [max_eq_right hlt.le]
    · rw [max_eq_left (Nat.not_lt.mp hlt), Nat.sub_eq_zero_of_le (Nat.not_lt.mp hlt)]
  · rw [lastProcessedSequence, file_save hvalid hfits now]
    exact resumes_of_two_le hcursor ⟨⟨shmOffsetMagic, shmOffsetVersion, f.offsetSeq⟩, rfl, rfl⟩ hreg
      hgrows rustMode

/-- The new files of the two languages differ at most in the name, and are the same exactly where
trimming does not change what is stored of it. -/
theorem new_files_agree (h : f.len < shmOffsetSlotLen) (pid now : ℕ) (name : List Char) :
    ∃ g r, initOffsetShm f pid now name = some g ∧ f.openRust pid now name = some r ∧
      g.len = r.len ∧ (∀ i, i < 32 ∨ 64 ≤ i → g.byte i = r.byte i) ∧
      (g = r ↔ nameBytes (utf8 name) = nameBytes (utf8 (trim name))) := by
  refine ⟨_, _, initOffsetShm_new h pid now name, if_pos h, rfl,
    fun i hi => writeSlot_byte pid now _ f.byte _ hi, ?_⟩
  rw [OffsetBytes.mk.injEq, and_iff_right rfl]
  exact writeSlot_inj pid now _ f.byte _

/-- **The offset files of the two languages agree.** A new file is the same in all but the name, and
byte for byte exactly where trimming does not change the bytes stored of the name, as where there is
no white space around it; Python opens what Rust opens, and files of other versions; and what a
consumer in either language committed behind its first message is where a consumer in either
language starts. -/
theorem offset_files_agree (f : OffsetBytes) (pid now : ℕ) (name : List Char) :
    (f.len < shmOffsetSlotLen →
      (∃ g r, initOffsetShm f pid now name = some g ∧ f.openRust pid now name = some r ∧
        g.len = r.len ∧ (∀ i, i < 32 ∨ 64 ≤ i → g.byte i = r.byte i) ∧
        (g = r ↔ nameBytes (utf8 name) = nameBytes (utf8 (trim name)))) ∧
      ((∀ c, name.head? = some c ∨ name.getLast? = some c → isWhitespace c = false) →
        initOffsetShm f pid now name = f.openRust pid now name)) ∧
    ((initOffsetShm f pid now name).isSome ↔ (f.openRust pid now name).isSome ∨
      shmOffsetSlotLen ≤ f.len ∧ f.magic = shmOffsetMagic ∧ f.version ≠ shmOffsetVersion) ∧
    ∀ f', f.openRust pid now name = some f' → ∀ cursor, 2 ≤ cursor → cursor - 1 < 2 ^ 64 →
      ∃ g, commitOffset f' cursor now = some g ∧
        f'.save (lastProcessedSequence cursor) now = g ∧
        ∀ (cap : Capacity) (writeSeq : ℕ) (mode : StartMode) (rustMode : ConsumerStartMode),
          startPosition cap writeSeq (some (loadOffset g)) mode =
            some (max cursor (oldestRetained writeSeq cap.val),
              oldestRetained writeSeq cap.val - cursor) ∧
          Resumes (τ := Unit) cursor (oldestRetained writeSeq cap.val)
            (attachWithOptions cap writeSeq rustMode (some g.file) .without) := by
  refine ⟨fun h => ⟨new_files_agree h pid now name, initOffsetShm_eq_openRust h pid now⟩,
    isSome_initOffsetShm, fun f' hopen cursor hcursor hfits =>
      ⟨_, commitOffset_eq_save hfits, rfl, fun cap writeSeq mode rustMode => ?_⟩⟩
  have hreg : Registration.without ≠ .refused := by rintro ⟨⟩
  obtain ⟨g, hg, -, hpython, hrust⟩ := resumes_committed (τ := Unit) (openRust_valid hopen) hcursor
    hfits now cap mode rustMode hreg (le_refl writeSeq)
  rw [commitOffset_eq_save hfits] at hg
  cases hg
  exact ⟨hpython, hrust⟩

end Python

end Ringfire
