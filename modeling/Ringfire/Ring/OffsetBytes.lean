import Mathlib.Data.List.DropRight
import Ringfire.Foundation.ByteMemory
import Ringfire.Ring.Checkpoint

/-!
# The bytes of an offset file

`ShmOffsetSlot` is mapped over the 64 bytes of the file: the magic, the version, the process, the
sequence, the time of the last update and 32 bytes for the consumer's name. The file outlives the
processes that map it, and one of them after the other reads what the last one left. The name is
stored without the white space around it.

## Main definitions

* `OffsetBytes`: a file, and `OffsetBytes.file`: what `OffsetCheckpoint` makes of it
* `OffsetBytes.openRust`, `OffsetBytes.save`: opening the file and committing to it

## Main results

* `openRust_file`: the file that was opened is the one `OffsetCheckpoint.openOrCreate` opens
* `committed_save`: what was committed is found again
-/

namespace Ringfire

open ByteMemory LittleEndian

/-- `size_of::<ShmOffsetSlot>()`. -/
def shmOffsetSlotLen : ℕ := 64

/-- A file; what is behind its length is zero. -/
structure OffsetBytes where
  len : ℕ
  byte : ℕ → UInt8

namespace OffsetBytes

/-- There is no file. -/
def missing : OffsetBytes := ⟨0, fun _ => 0⟩

/-- The bytes with `l` stored from `a` on. -/
def splice (byte : ℕ → UInt8) (a : ℕ) (l : List UInt8) : ℕ → UInt8 :=
  fun i => if a ≤ i ∧ i < a + l.length then l.getD (i - a) 0 else byte i

/-- `char::is_whitespace`: the characters with the property `White_Space`. -/
def isWhitespace (c : Char) : Bool :=
  decide (9 ≤ c.toNat ∧ c.toNat ≤ 13 ∨ 0x2000 ≤ c.toNat ∧ c.toNat ≤ 0x200A ∨
    c.toNat ∈ [0x20, 0x85, 0xA0, 0x1680, 0x2028, 0x2029, 0x202F, 0x205F, 0x3000])

/-- `str::trim`. -/
def trim (name : List Char) : List Char :=
  (name.dropWhile isWhitespace).rdropWhile isWhitespace

/-- The bytes of a string. -/
def utf8 (name : List Char) : List UInt8 := name.flatMap String.utf8EncodeChar

/-- The 32 bytes for a name: 31 at most, and zeros. -/
def nameBytes (name : List UInt8) : List UInt8 :=
  name.take 31 ++ List.replicate (32 - (name.take 31).length) 0

/-- `slot_ptr.write` of a new slot, field by field. -/
def writeSlot (pid now : ℕ) (name : List UInt8) (byte : ℕ → UInt8) : ℕ → UInt8 :=
  let byte := store byte 0 8 shmOffsetMagic
  let byte := store byte 8 4 shmOffsetVersion
  let byte := store byte 12 4 pid
  let byte := store byte 16 8 0
  let byte := store byte 24 8 now
  splice byte 32 (nameBytes name)

variable (f : OffsetBytes)

/-- The fields that are read. -/
def magic : ℕ := load f.byte 0 8

/-- The version of the layout. -/
def version : ℕ := load f.byte 8 4

/-- The sequence that was committed. -/
def offsetSeq : ℕ := load f.byte 16 8

/-- What the file holds. -/
def file : OffsetFile :=
  if f.len < shmOffsetSlotLen then .short else .full ⟨f.magic, f.version, f.offsetSeq⟩

/-- `open_or_create` on the bytes; `none` when it refuses the file. A file that is too short becomes
a slot, and one that was accepted gets the number of the process. -/
def openRust (pid now : ℕ) (name : List Char) : Option OffsetBytes :=
  if f.len < shmOffsetSlotLen then
    some ⟨shmOffsetSlotLen, writeSlot pid now (utf8 (trim name)) f.byte⟩
  else if f.magic = shmOffsetMagic ∧ f.version = shmOffsetVersion then
    some { f with byte := store f.byte 12 4 pid }
  else none

/-- `save`: the sequence, and the time. -/
def save (seq now : ℕ) : OffsetBytes :=
  { f with byte := store (store f.byte 16 8 seq) 24 8 now }

/-- Both magic and version are right. -/
structure Valid (f : OffsetBytes) : Prop where
  len : shmOffsetSlotLen ≤ f.len
  magic : f.magic = shmOffsetMagic
  version : f.version = shmOffsetVersion

variable {f}

/-! ## Fields do not overlap -/

theorem load_splice {byte : ℕ → UInt8} {a k b : ℕ} {l : List UInt8}
    (h : a + k ≤ b ∨ b + l.length ≤ a) : load (splice byte b l) a k = load byte a k := by
  apply load_congr
  intro i hle hlt
  unfold splice
  rw [if_neg (by omega)]

theorem load_store_of_ne {byte : ℕ → UInt8} {a k b j n : ℕ} (h : a + k ≤ b ∨ b + j ≤ a) :
    load (store byte b j n) a k = load byte a k := by
  apply load_congr
  intro i hle hlt
  exact store_of_outside (by omega)

/-- Two lists one behind the other are stored one after the other. -/
theorem splice_append (byte : ℕ → UInt8) (a : ℕ) (l l' : List UInt8) :
    splice byte a (l ++ l') = splice (splice byte a l) (a + l.length) l' := by
  funext i
  unfold splice
  rw [List.length_append]
  split_ifs with h h' h'' h''
  · rw [List.getD_append_right _ _ _ _ (by omega)]
    congr 1
    omega
  · rw [List.getD_append _ _ _ _ (by omega)]
  · omega
  · omega
  · omega
  · rfl

/-- A number is stored little end first. -/
theorem splice_toLe (byte : ℕ → UInt8) (a k n : ℕ) :
    splice byte a (toLe k n) = store byte a k n := by
  funext i
  unfold splice store
  rw [length_toLe]

theorem length_nameBytes (name : List UInt8) : (nameBytes name).length = 32 := by
  unfold nameBytes
  rw [List.length_append, List.length_replicate, List.length_take]
  omega

theorem splice_inj {byte : ℕ → UInt8} {a : ℕ} {l l' : List UInt8} (hlen : l.length = l'.length) :
    splice byte a l = splice byte a l' ↔ l = l' := by
  refine ⟨fun h => List.ext_getElem hlen fun i hi hi' => ?_, fun h => by rw [h]⟩
  have hat : ∀ m : List UInt8, i < m.length → splice byte a m (a + i) = m.getD i 0 := by
    intro m hm
    rw [splice, if_pos (by omega), Nat.add_sub_cancel_left]
  have heq := congrFun h (a + i)
  rw [hat l hi, hat l' hi'] at heq
  rwa [List.getD_eq_getElem _ _ hi, List.getD_eq_getElem _ _ hi'] at heq

/-! ## The name -/

/-- A name without white space around it is stored as it is. -/
theorem trim_eq_self {name : List Char}
    (h : ∀ c, name.head? = some c ∨ name.getLast? = some c → isWhitespace c = false) :
    trim name = name := by
  have hfront : name.dropWhile isWhitespace = name := by
    rw [List.dropWhile_eq_self_iff]
    intro hpos
    rw [h _ (.inl (List.head?_eq_getElem? ▸ List.getElem?_eq_getElem hpos))]
    exact Bool.false_ne_true
  rw [trim, hfront, List.rdropWhile_eq_self_iff]
  intro hne
  rw [h _ (.inr (List.getLast?_eq_some_getLast hne))]
  exact Bool.false_ne_true

example : trim " algo 1\n".toList = "algo 1".toList := by decide

/-! ## Opening and committing -/

section

variable (pid now : ℕ) (name : List UInt8) (byte : ℕ → UInt8)

/-- A new slot is valid, and nothing was committed to it. -/
theorem writeSlot_fields :
    load (writeSlot pid now name byte) 0 8 = shmOffsetMagic ∧
      load (writeSlot pid now name byte) 8 4 = shmOffsetVersion ∧
      load (writeSlot pid now name byte) 16 8 = 0 := by
  have hname := length_nameBytes name
  unfold writeSlot
  refine ⟨?_, ?_, ?_⟩
  · rw [load_splice (by omega), load_store_of_ne (by omega), load_store_of_ne (by omega),
      load_store_of_ne (by omega), load_store_of_ne (by omega), load_store (by decide)]
  · rw [load_splice (by omega), load_store_of_ne (by omega), load_store_of_ne (by omega),
      load_store_of_ne (by omega), load_store (by decide)]
  · rw [load_splice (by omega), load_store_of_ne (by omega), load_store (by decide)]

theorem writeSlot_valid : Valid ⟨shmOffsetSlotLen, writeSlot pid now name byte⟩ :=
  ⟨le_refl _, (writeSlot_fields pid now name byte).1, (writeSlot_fields pid now name byte).2.1⟩

/-- Two new slots differ at most in the name. -/
theorem writeSlot_byte (name' : List UInt8) {i : ℕ} (hi : i < 32 ∨ 64 ≤ i) :
    writeSlot pid now name byte i = writeSlot pid now name' byte i := by
  have hname := length_nameBytes name
  have hname' := length_nameBytes name'
  unfold writeSlot splice
  rw [if_neg (by omega), if_neg (by omega)]

theorem writeSlot_inj (name' : List UInt8) :
    writeSlot pid now name byte = writeSlot pid now name' byte ↔
      nameBytes name = nameBytes name' :=
  splice_inj ((length_nameBytes name).trans (length_nameBytes name').symm)

end

theorem Valid.file (h : f.Valid) :
    f.file = .full ⟨shmOffsetMagic, shmOffsetVersion, f.offsetSeq⟩ := by
  rw [OffsetBytes.file, if_neg (by have := h.len; omega), h.magic, h.version]

/-- What opening leaves. -/
theorem openRust_valid {pid now : ℕ} {name : List Char} {f' : OffsetBytes}
    (h : f.openRust pid now name = some f') : f'.Valid := by
  unfold openRust at h
  split_ifs at h with hlen hok
  · cases h
    exact writeSlot_valid pid now _ f.byte
  · cases h
    refine ⟨Nat.not_lt.mp hlen, ?_, ?_⟩
    · exact (load_store_of_ne (by omega)).trans hok.1
    · exact (load_store_of_ne (by omega)).trans hok.2

/-- The sequence of the last commit, zero when there was none. -/
def committed (f : OffsetBytes) : ℕ := if f.len < shmOffsetSlotLen then 0 else f.offsetSeq

theorem Valid.committed (h : f.Valid) : f.committed = f.offsetSeq :=
  if_neg (Nat.not_lt.mpr h.len)

/-- Nothing was committed to a new slot. -/
theorem writeSlot_committed (pid now : ℕ) (name : List UInt8) (byte : ℕ → UInt8) :
    committed ⟨shmOffsetSlotLen, writeSlot pid now name byte⟩ = 0 :=
  (writeSlot_valid pid now name byte).committed.trans (writeSlot_fields pid now name byte).2.2

/-- Opening a file does not change what was committed. -/
theorem openRust_committed {pid now : ℕ} {name : List Char} {f' : OffsetBytes}
    (h : f.openRust pid now name = some f') : f'.committed = f.committed := by
  have hvalid := openRust_valid h
  unfold openRust at h
  split_ifs at h with hlen
  · cases h
    rw [writeSlot_committed, OffsetBytes.committed, if_pos hlen]
  · cases h
    rw [hvalid.committed, OffsetBytes.committed, if_neg hlen]
    exact load_store_of_ne (by omega)

/-- The checkpoint that was opened has the sequence that was committed. -/
theorem openOrCreate_committed {cp : OffsetCheckpoint}
    (h : OffsetCheckpoint.openOrCreate f.file = .ok cp) : cp.slot.offsetSeq = f.committed := by
  unfold OffsetBytes.file at h
  unfold OffsetBytes.committed
  split_ifs at h ⊢
  · cases h
    rfl
  · simp only [OffsetCheckpoint.openOrCreate] at h
    split_ifs at h
    obtain rfl := Except.ok.inj h
    rfl

/-- **The bytes that were opened are the checkpoint that was opened.** -/
theorem openRust_file {pid now : ℕ} {name : List Char} {f' : OffsetBytes}
    (h : f.openRust pid now name = some f') :
    ∃ cp, OffsetCheckpoint.openOrCreate f.file = .ok cp ∧ f'.file = .full cp.slot := by
  suffices hopen : ∃ cp, OffsetCheckpoint.openOrCreate f.file = .ok cp by
    obtain ⟨cp, hcp⟩ := hopen
    have hvalid := openRust_valid h
    refine ⟨cp, hcp, ?_⟩
    rw [hvalid.file, ← hvalid.committed, openRust_committed h, ← openOrCreate_committed hcp,
      ← cp.magic_eq, ← cp.version_eq]
  unfold openRust at h
  unfold OffsetBytes.file
  split_ifs at h ⊢ with hlen hok
  · exact ⟨_, rfl⟩
  · refine ⟨⟨⟨f.magic, f.version, f.offsetSeq⟩, hok.1, hok.2⟩, ?_⟩
    rw [OffsetCheckpoint.openOrCreate, dif_pos hok.1, dif_pos hok.2]

theorem save_valid (h : f.Valid) (seq now : ℕ) : (f.save seq now).Valid := by
  refine ⟨h.len, ?_, ?_⟩
  · exact ((load_store_of_ne (by omega)).trans (load_store_of_ne (by omega))).trans h.magic
  · exact ((load_store_of_ne (by omega)).trans (load_store_of_ne (by omega))).trans h.version

/-- **What was committed is found again.** -/
theorem committed_save (h : f.Valid) {seq : ℕ} (hseq : seq < 2 ^ 64) (now : ℕ) :
    (f.save seq now).committed = seq := by
  rw [(save_valid h seq now).committed]
  exact (load_store_of_ne (by omega)).trans (load_store hseq)

end OffsetBytes

end Ringfire
