import Ringfire.Arena.Sequential
import Ringfire.Replication.Wire

/-!
# The mirror ring

`MirrorRing` of `replication.rs`, the single writer of a mirror, and `Mirror::write_records`, the
loop that parses the body of a `DATA` frame and writes its records. A record is written under the
source's sequence number, which must be `next_seq`; on an arena ring its blob goes into the
mirror's own arena and the descriptor is rewritten to point at it.

`log` records what every write stored: the slot payload, and the bytes its descriptor names in the
arena, both read back right after the write. `Written.Right` compares that with the record of the
source.

## Main definitions

* `MirrorRing.write`, `MirrorRing.writeBlob`, `MirrorRing.skipTo`, `MirrorRing.publish`
* `writeRecord`, `writeLoop`, `MirrorRing.writeRecords`

## Main results

* `MirrorRing.Inv.writeLoop`: from the body of a `DATA` frame exactly the records from `next_seq`
  on are written, each at `next_seq` and with the right payload
-/

namespace Ringfire

open PayloadArena

variable {w : ℕ}

/-- The layout of a ring and its mirrors: `w` is the length of a slot payload. -/
structure Geometry (w : ℕ) where
  cap : Capacity
  arena : Option ArenaCapacity
  descriptor : arena.isSome = true → blobRefLen ≤ w

/-- A slot payload from its bytes. -/
def payloadOf (w : ℕ) (bytes : List UInt8) : Payload w UInt8 := fun i => bytes.getD i 0

/-- The bytes of a slot payload. -/
def payloadBytes (d : Payload w UInt8) : List UInt8 := List.ofFn d

theorem payloadBytes_payloadOf {bytes : List UInt8} (h : bytes.length = w) :
    payloadBytes (payloadOf w bytes) = bytes := by
  subst h
  apply List.ext_getElem
  · simp [payloadBytes]
  · intro i h₁ h₂
    simp [payloadBytes, payloadOf, h₂]

/-- What a write stored. -/
structure Written where
  /-- `next_seq` when it was written. -/
  position : ℕ
  seq : ℕ
  /-- The slot payload after the write. -/
  payload : List UInt8
  /-- The bytes its descriptor names in the arena after the write. -/
  blob : List UInt8
  deriving DecidableEq

/-- A mirror ring. -/
structure MirrorRing (w : ℕ) where
  slots : ℕ → Slot w UInt8
  writeSeq : ℕ
  nextSeq : ℕ
  arena : ArenaMem UInt8
  log : List Written

namespace MirrorRing

/-- A fresh mirror ring. -/
def create (w : ℕ) : MirrorRing w := ⟨fun _ => ⟨0, fun _ => 0⟩, 0, 1, .init, []⟩

/-- The ring once slot `seq` holds `payload`. -/
def store (g : Geometry w) (ring : MirrorRing w) (seq : ℕ) (payload : List UInt8) :
    ℕ → Slot w UInt8 :=
  writeSlot ring.slots (slotIndex g.cap seq) seq (payloadOf w payload)

/-- `write`. -/
def write (g : Geometry w) (ring : MirrorRing w) (seq : ℕ) (payload : List UInt8) :
    MirrorRing w :=
  let slots := ring.store g seq payload
  { ring with
    slots := slots
    nextSeq := seq + 1
    log := ring.log ++
      [⟨ring.nextSeq, seq, payloadBytes (slots (slotIndex g.cap seq)).data, []⟩] }

/-- `write_blob`; `none` when the arena counter would leave `u64`. -/
def writeBlob (g : Geometry w) (acap : ArenaCapacity) (ring : MirrorRing w) (seq : ℕ)
    (descriptor blob : List UInt8) : Option (Except RingfireError Unit × MirrorRing w) :=
  match ring.arena.writeBlob acap blob (blobRefAt descriptor).flags with
  | none => none
  -- nothing is written to the ring
  | some (.error e, arena) => some (.error e, { ring with arena := arena })
  | some (.ok placed, arena) =>
    let slots := ring.store g seq (putBlobRef descriptor placed)
    let stored := payloadBytes (slots (slotIndex g.cap seq)).data
    some (.ok (), { ring with
      slots := slots
      arena := arena
      nextSeq := seq + 1
      log := ring.log ++
        [⟨ring.nextSeq, seq, stored, arena.viewBlob acap (blobRefAt stored)⟩] })

/-- `publish`. -/
def publish (ring : MirrorRing w) : MirrorRing w := { ring with writeSeq := ring.nextSeq - 1 }

/-- `skip_to`. -/
def skipTo (ring : MirrorRing w) (seq : ℕ) : MirrorRing w :=
  if ring.nextSeq < seq then { ring with nextSeq := seq } else ring

end MirrorRing

/-- The body of the loop of `write_records`: record `s` is taken from `rest` and written unless it
is below `next`, the write position the loop started with. -/
def writeRecord (g : Geometry w) (next s : ℕ) (rest : List UInt8) (ring : MirrorRing w) :
    Option (Except RingfireError (List UInt8) × MirrorRing w) :=
  if rest.length < w then
    some (.error (.protocol "DATA frame shorter than its records"), ring)
  else
    match g.arena with
    | some acap =>
      -- the blob follows its descriptor, whose length field says how long it is
      let blobLen := (blobRefAt (rest.take w)).len
      if (rest.drop w).length < blobLen then
        some (.error (.protocol "DATA frame shorter than its blobs"), ring)
      else if next ≤ s then
        (ring.writeBlob g acap s (rest.take w) ((rest.drop w).take blobLen)).map
          fun (res, ring') => (res.map fun _ => (rest.drop w).drop blobLen, ring')
      else some (.ok ((rest.drop w).drop blobLen), ring)
    | none =>
      if next ≤ s then some (.ok (rest.drop w), ring.write g s (rest.take w))
      else some (.ok (rest.drop w), ring)

/-- The loop of `write_records` over `count` records from `s` on. -/
def writeLoop (g : Geometry w) (next : ℕ) :
    ℕ → ℕ → List UInt8 → MirrorRing w → Option (Except RingfireError (List UInt8) × MirrorRing w)
  | 0, _, rest, ring => some (.ok rest, ring)
  | count + 1, s, rest, ring =>
    match writeRecord g next s rest ring with
    | none => none
    | some (.error e, ring') => some (.error e, ring')
    | some (.ok rest', ring') => writeLoop g next count (s + 1) rest' ring'

/-- `write_records` without the bookkeeping of `source_seq`: the records are written, and published
when the body was exactly the records. -/
def MirrorRing.writeRecords (g : Geometry w) (ring : MirrorRing w) (seq count : ℕ)
    (bytes : List UInt8) : Option (Except RingfireError Unit × MirrorRing w) :=
  match writeLoop g ring.nextSeq count seq bytes ring with
  | none => none
  | some (.error e, ring') => some (.error e, ring')
  | some (.ok [], ring') => some (.ok (), ring'.publish)
  -- the records are in their slots by now, but nothing is published
  | some (.ok (_ :: _), ring') =>
    some (.error (.protocol "DATA frame longer than its records"), ring')

/-! ## What is written -/

/-- A record of a ring of this geometry. -/
structure Record.WellFormed (g : Geometry w) (r : Record) : Prop where
  length : r.payload.length = w
  plain : g.arena = none → r.blob = []
  blob : ∀ acap, g.arena = some acap →
    (blobRefAt r.payload).len = r.blob.length ∧ r.blob.length ≤ maxLen acap

/-- The payload written is the source's: the same slot bytes, and on an arena ring the same
metadata, blob length and blob bytes. -/
structure Written.Right (g : Geometry w) (record : ℕ → Record) (x : Written) : Prop where
  position : x.seq = x.position
  plain : g.arena = none → x.payload = (record x.seq).payload
  metadata : g.arena.isSome = true → metadata x.payload = metadata (record x.seq).payload
  len : g.arena.isSome = true → (blobRefAt x.payload).len = (record x.seq).blob.length
  blob : x.blob = (record x.seq).blob

namespace MirrorRing

/-- The log is right and in order. -/
structure Inv (g : Geometry w) (record : ℕ → Record) (ring : MirrorRing w) : Prop where
  right : ∀ x ∈ ring.log, x.Right g record
  below : ∀ x ∈ ring.log, x.seq < ring.nextSeq
  increasing : (ring.log.map Written.seq).Pairwise (· < ·)

variable {g : Geometry w} {record : ℕ → Record} {ring ring' : MirrorRing w}

/-- A ring nothing was written to yet. -/
theorem Inv.of_log (h : ring.log = []) : ring.Inv g record := by
  refine ⟨?_, ?_, ?_⟩
  · rw [h]
    rintro _ ⟨⟩
  · rw [h]
    rintro _ ⟨⟩
  · rw [h]
    exact .nil

theorem Inv.publish (h : ring.Inv g record) : ring.publish.Inv g record :=
  ⟨h.right, h.below, h.increasing⟩

theorem le_skipTo (ring : MirrorRing w) (seq : ℕ) :
    ring.nextSeq ≤ (ring.skipTo seq).nextSeq ∧ seq ≤ (ring.skipTo seq).nextSeq := by
  unfold skipTo
  split_ifs with h
  · exact ⟨h.le, le_refl _⟩
  · exact ⟨le_refl _, Nat.not_lt.mp h⟩

theorem skipTo_log (ring : MirrorRing w) (seq : ℕ) : (ring.skipTo seq).log = ring.log := by
  unfold skipTo
  split_ifs <;> rfl

theorem Inv.skipTo (h : ring.Inv g record) (seq : ℕ) : (ring.skipTo seq).Inv g record := by
  have hle := (ring.le_skipTo seq).1
  refine ⟨?_, ?_, ?_⟩
  · rw [skipTo_log]
    exact h.right
  · rw [skipTo_log]
    exact fun x hx => (h.below x hx).trans_le hle
  · rw [skipTo_log]
    exact h.increasing

/-- Appending a right entry at the write position. -/
theorem Inv.append (h : ring.Inv g record) {x : Written} (hseq : x.seq = ring.nextSeq)
    (hx : x.Right g record) {slots : ℕ → Slot w UInt8} {arena : ArenaMem UInt8} :
    Inv g record { ring with
      slots := slots, arena := arena, nextSeq := ring.nextSeq + 1, log := ring.log ++ [x] } := by
  refine ⟨fun y hy => ?_, fun y hy => ?_, ?_⟩
  · rcases List.mem_append.mp hy with hy | hy
    · exact h.right y hy
    · rw [List.mem_singleton.mp hy]
      exact hx
  · rcases List.mem_append.mp hy with hy | hy
    · exact (h.below y hy).trans (Nat.lt_succ_self _)
    · rw [List.mem_singleton.mp hy, hseq]
      exact Nat.lt_succ_self _
  · rw [List.map_append, List.pairwise_append]
    refine ⟨h.increasing, List.pairwise_singleton _ _, fun a ha b hb => ?_⟩
    obtain ⟨y, hy, rfl⟩ := List.mem_map.mp ha
    rw [List.mem_singleton.mp hb, hseq]
    exact h.below y hy

theorem stored_eq (ring : MirrorRing w) (g : Geometry w) (seq : ℕ) {payload : List UInt8}
    (h : payload.length = w) :
    payloadBytes (ring.store g seq payload (slotIndex g.cap seq)).data = payload := by
  rw [store, writeSlot, Function.update_self, payloadBytes_payloadOf h]

theorem Inv.write (h : ring.Inv g record) (hr : (record ring.nextSeq).WellFormed g)
    (hg : g.arena = none) :
    (ring.write g ring.nextSeq (record ring.nextSeq).payload).Inv g record := by
  refine h.append rfl ⟨rfl, fun _ => ?_, ?_, ?_, (hr.plain hg).symm⟩
  · exact stored_eq ring g ring.nextSeq hr.length
  · rw [hg]
    rintro ⟨⟩
  · rw [hg]
    rintro ⟨⟩

theorem writeBlob_fits {acap : ArenaCapacity} {m m' : ArenaMem UInt8} {bytes : List UInt8}
    {flags : ℕ} {r : BlobRef} (hflags : flags < 256 ^ 4)
    (hw : m.writeBlob acap bytes flags = some (.ok r, m')) : r.Fits := by
  obtain ⟨hlen, -, -, hmax⟩ := writeBlob_ok hw
  have hlen' : r.len < 256 ^ 4 := by
    have h32 : maxLen acap ≤ u32Max := Nat.min_le_right _ _
    have hu : u32Max = 256 ^ 4 - 1 := by decide
    omega
  unfold ArenaMem.writeBlob at hw
  split at hw
  · cases hw
  · next hcheck =>
    obtain ⟨-, rfl⟩ := checkLen_eq_ok hcheck
    cases hw
    exact ⟨by decide, by decide, by decide⟩
  · split_ifs at hw with hfits
    cases hw
    refine ⟨?_, hlen', hflags⟩
    have hu : u64Max < 256 ^ 8 := by decide
    calc (place acap m.reserved bytes.length).1 ≤ (place acap m.reserved bytes.length).2 := by
          rw [place_snd]
          exact Nat.le_add_right _ _
      _ ≤ u64Max := hfits
      _ < 256 ^ 8 := hu

theorem Inv.writeBlob (h : ring.Inv g record) {acap : ArenaCapacity} (hg : g.arena = some acap)
    (hr : (record ring.nextSeq).WellFormed g) {res : Except RingfireError Unit}
    (hw : ring.writeBlob g acap ring.nextSeq (record ring.nextSeq).payload
      (record ring.nextSeq).blob = some (res, ring')) :
    ring'.Inv g record ∧ res = .ok () ∧ ring'.nextSeq = ring.nextSeq + 1 ∧
      ∃ x : Written, x.seq = ring.nextSeq ∧ ring'.log = ring.log ++ [x] := by
  obtain ⟨hlen, hmax⟩ := hr.blob acap hg
  unfold MirrorRing.writeBlob at hw
  split at hw
  · cases hw
  · next e arena hres => exact absurd (writeBlob_error hres).2.1 (Nat.not_lt.mpr hmax)
  · next placed arena hres =>
    cases hw
    have hsome : g.arena.isSome = true := by rw [hg]; rfl
    have hw16 := g.descriptor hsome
    have hfits := writeBlob_fits (blobRefAt_lt _).2 hres
    have hput : (putBlobRef (record ring.nextSeq).payload placed).length = w := by
      rw [length_putBlobRef (by rw [hr.length]; exact hw16), hr.length]
    have hstored := stored_eq ring g ring.nextSeq hput
    refine ⟨h.append rfl ?_, rfl, rfl, _, rfl, rfl⟩
    simp only [hstored, blobRefAt_putBlobRef hfits]
    refine ⟨rfl, fun hnone => ?_, fun _ => ?_, fun _ => ?_, ?_⟩
    · rw [hg] at hnone
      cases hnone
    · exact metadata_putBlobRef _ _
    · simp only
      rw [blobRefAt_putBlobRef hfits]
      exact (writeBlob_ok hres).1
    · exact viewBlob_writeBlob hres

/-- What is left of the body behind a record. -/
theorem record_bytes {r : Record} (hr : r.WellFormed g) (rest : List UInt8) :
    (r.bytes ++ rest).take w = r.payload ∧ (r.bytes ++ rest).drop w = r.blob ++ rest ∧
      w ≤ (r.bytes ++ rest).length := by
  have hlen := hr.length
  refine ⟨?_, ?_, ?_⟩
  · rw [Record.bytes, List.append_assoc, List.take_left' hlen]
  · rw [Record.bytes, List.append_assoc, List.drop_left' hlen]
  · rw [Record.bytes, List.length_append, List.length_append]
    omega

/-- What `write_records` did from the write position `next` on with the records `s`, …,
`s + count - 1`. -/
structure Writes (g : Geometry w) (record : ℕ → Record) (next s count : ℕ)
    (ring ring' : MirrorRing w) : Prop where
  inv : ring'.Inv g record
  nextSeq : ring'.nextSeq = max next (s + count)
  log : ∃ xs, ring'.log = ring.log ++ xs ∧
    xs.map Written.seq = List.range' (max next s) (s + count - max next s)

theorem Writes.skip {next s count : ℕ} {ring₁ : MirrorRing w} (hs : s < next)
    (hlog₁ : ring₁.log = ring.log) (h : Writes g record next (s + 1) count ring₁ ring') :
    Writes g record next s (count + 1) ring ring' := by
  obtain ⟨hinv, hnext, xs, hlog, hxs⟩ := h
  refine ⟨hinv, by rw [hnext]; omega, xs, by rw [hlog, hlog₁], ?_⟩
  rw [hxs, max_eq_left (by omega), max_eq_left (by omega)]
  congr 1
  omega

theorem Writes.cons {next s count : ℕ} {ring₁ : MirrorRing w} {x : Written} (hs : next ≤ s)
    (hx : x.seq = s) (hlog₁ : ring₁.log = ring.log ++ [x])
    (h : Writes g record next (s + 1) count ring₁ ring') :
    Writes g record next s (count + 1) ring ring' := by
  obtain ⟨hinv, hnext, xs, hlog, hxs⟩ := h
  refine ⟨hinv, by rw [hnext]; omega, x :: xs, by rw [hlog, hlog₁]; simp, ?_⟩
  rw [List.map_cons, hxs, hx, max_eq_right hs, max_eq_right (by omega)]
  have hcount : s + (count + 1) - s = s + 1 + count - (s + 1) + 1 := by omega
  rw [hcount, List.range'_succ]

/-- One record, which is at or below the write position. -/
theorem Inv.writeRecord (h : ring.Inv g record) {next s : ℕ} (hr : (record s).WellFormed g)
    (hnext : ring.nextSeq = max next s) (rest : List UInt8)
    {res : Except RingfireError (List UInt8)}
    (hw : Ringfire.writeRecord g next s ((record s).bytes ++ rest) ring = some (res, ring')) :
    ring'.Inv g record ∧ res = .ok rest ∧ ring'.nextSeq = max next (s + 1) ∧
      ((s < next ∧ ring'.log = ring.log) ∨
        (next ≤ s ∧ ∃ x : Written, x.seq = s ∧ ring'.log = ring.log ++ [x])) := by
  obtain ⟨htake, hdrop, hle⟩ := record_bytes hr rest
  unfold Ringfire.writeRecord at hw
  rw [if_neg (Nat.not_lt.mpr hle), htake, hdrop] at hw
  cases hg : g.arena with
  | none =>
    simp only [hg, hr.plain hg, List.nil_append] at hw
    split_ifs at hw with hs
    · cases hw
      obtain rfl : s = ring.nextSeq := by omega
      exact ⟨h.write hr hg, rfl, (max_eq_right (Nat.le_succ_of_le hs)).symm,
        .inr ⟨hs, _, rfl, rfl⟩⟩
    · cases hw
      exact ⟨h, rfl, by omega, .inl ⟨by omega, rfl⟩⟩
  | some acap =>
    have hlen := (hr.blob acap hg).1
    simp only [hg, hlen, List.take_left, List.drop_left] at hw
    rw [if_neg (by rw [List.length_append]; omega)] at hw
    split_ifs at hw with hs
    · obtain rfl : s = ring.nextSeq := by omega
      obtain ⟨⟨res', ring₁⟩, hwb, heq⟩ := Option.map_eq_some_iff.mp hw
      obtain ⟨hinv, rfl, hnext', x, hx, hlog⟩ := h.writeBlob hg hr hwb
      cases heq
      exact ⟨hinv, rfl, hnext'.trans (max_eq_right (Nat.le_succ_of_le hs)).symm,
        .inr ⟨hs, x, hx, hlog⟩⟩
    · cases hw
      exact ⟨h, rfl, by omega, .inl ⟨by omega, rfl⟩⟩

/-- **From the body of a `DATA` frame exactly the records from the write position on are
written**, each at the write position and with the source's payload. -/
theorem Inv.writeLoop {next : ℕ} (rest : List UInt8) :
    ∀ (count s : ℕ) {ring ring' : MirrorRing w} {res : Except RingfireError (List UInt8)},
      ring.Inv g record → (∀ k, s ≤ k → k < s + count → (record k).WellFormed g) →
      ring.nextSeq = max next s →
      Ringfire.writeLoop g next count s (dataBytes record s count ++ rest) ring =
        some (res, ring') →
      Writes g record next s count ring ring' ∧ res = .ok rest := by
  intro count
  induction count with
  | zero =>
    intro s ring ring' res h _ hnext hloop
    cases hloop
    refine ⟨⟨h, hnext, [], (List.append_nil _).symm, ?_⟩, rfl⟩
    rw [Nat.add_zero, Nat.sub_eq_zero_of_le (le_max_right next s)]
    rfl
  | succ count ih =>
    intro s ring ring' res h hwf hnext hloop
    have hr := hwf s (le_refl s) (by omega)
    have hwf' : ∀ k, s + 1 ≤ k → k < s + 1 + count → (record k).WellFormed g :=
      fun k hk hk' => hwf k (by omega) (by omega)
    rw [dataBytes_succ, List.append_assoc, Ringfire.writeLoop] at hloop
    split at hloop
    · cases hloop
    · next e ring₁ hone => cases (h.writeRecord hr hnext _ hone).2.1
    · next rest' ring₁ hone =>
      obtain ⟨hinv, hrest, hnext', hlog⟩ := h.writeRecord hr hnext _ hone
      cases hrest
      obtain ⟨hwr, hres⟩ := ih (s + 1) hinv hwf' hnext' hloop
      refine ⟨?_, hres⟩
      rcases hlog with ⟨hs, hlog⟩ | ⟨hs, x, hx, hlog⟩
      · exact hwr.skip hs hlog
      · exact hwr.cons hs hx hlog

/-- `write_records` on the body of a `DATA` frame that starts at or below the write position. -/
theorem Inv.writeRecords (h : ring.Inv g record) {seq count : ℕ} {res : Except RingfireError Unit}
    (hwf : ∀ k, seq ≤ k → k < seq + count → (record k).WellFormed g) (hseq : seq ≤ ring.nextSeq)
    (hw : ring.writeRecords g seq count (dataBytes record seq count) = some (res, ring')) :
    Writes g record ring.nextSeq seq count ring ring' ∧ res = .ok () ∧
      ring'.writeSeq = ring'.nextSeq - 1 := by
  unfold MirrorRing.writeRecords at hw
  rw [← List.append_nil (dataBytes record seq count)] at hw
  split at hw
  · cases hw
  · next e ring₁ hloop =>
    cases (h.writeLoop [] count seq hwf (max_eq_left hseq).symm hloop).2
  · next ring₁ hloop =>
    cases hw
    obtain ⟨⟨hinv, hnext, hlog⟩, -⟩ := h.writeLoop [] count seq hwf (max_eq_left hseq).symm hloop
    exact ⟨⟨hinv.publish, hnext, hlog⟩, rfl, rfl⟩
  · next b bs ring₁ hloop =>
    cases (h.writeLoop [] count seq hwf (max_eq_left hseq).symm hloop).2

end MirrorRing

end Ringfire
