import Ringfire.Arena.System

/-!
# The arena, one call at a time

`write_blob` and `view_blob` as functions of an arena nobody else touches. `writeBlob` is what the
only writer computes when its memory accesses are taken without interruption
(`writeBlob_reaches`), so the invariant of the interleaved model carries over.
-/

namespace Ringfire

open PayloadArena

variable {β : Type}

/-- `copy_from_slice`: the bytes stored from index `start` on. -/
def storeBytes : ℕ → List β → (ℕ → β) → ℕ → β
  | _, [], data => data
  | start, b :: bs, data => storeBytes (start + 1) bs (Function.update data start b)

namespace ArenaMem

/-- `write_blob`; `none` when the counter would leave `u64`. -/
def writeBlob (cap : ArenaCapacity) (m : ArenaMem β) (bytes : List β) (flags : ℕ) :
    Option (Except RingfireError BlobRef × ArenaMem β) :=
  match checkLen cap bytes.length with
  | some (.error e) => some (.error e, m)
  -- the empty blob takes no room
  | some (.ok r) =>
    some (.ok r, { m with granted := m.granted ++ [r], written := m.written ++ [(r, bytes)] })
  | none =>
    if (place cap m.reserved bytes.length).2 ≤ u64Max then
      let r := grant cap (.writeBlob bytes flags) m.reserved
      some (.ok r,
        { reserved := (place cap m.reserved bytes.length).2
          data := storeBytes (r.offset &&& (cap.val - 1)) bytes m.data
          granted := m.granted ++ [r]
          written := m.written ++ [(r, bytes)] })
    else none

/-- `view_blob`: the slice a descriptor names. -/
def viewBlob (cap : ArenaCapacity) (m : ArenaMem β) (r : BlobRef) : List β :=
  (List.range r.len).map fun i => m.data ((r.offset &&& (cap.val - 1)) + i)

end ArenaMem

/-- The only writer and its arena. -/
def writerStep (cap : ArenaCapacity) (s : ArenaMem β × ArenaWriter β) (a : WriterLabel β) :
    Option (ArenaMem β × ArenaWriter β) :=
  s.2.step cap s.1 a

variable {cap : ArenaCapacity} {m m' : ArenaMem β} {bytes : List β} {flags : ℕ}

/-- The stores of the bytes from `k` on, in order. -/
theorem copy_reaches (cap : ArenaCapacity) (r : BlobRef) :
    ∀ (rest done : List β) (m : ArenaMem β),
      Transition.Reaches (writerStep cap)
        (m, ⟨.copy r (done ++ rest) (Finset.Ico done.length (done.length + rest.length)), none⟩)
        ({ m with
            data := storeBytes ((r.offset &&& (cap.val - 1)) + done.length) rest m.data
            written := m.written ++ [(r, done ++ rest)] },
          ⟨.idle, some (.ok r)⟩) := by
  intro rest
  induction rest with
  | nil =>
    intro done m
    refine ⟨[.tick], Transition.run_cons_eq_some.mpr ⟨_, ?_, rfl⟩⟩
    simp [writerStep, ArenaWriter.step, storeBytes]
  | cons b rest ih =>
    intro done m
    have hstep : writerStep cap
        (m, ⟨.copy r (done ++ b :: rest)
          (Finset.Ico done.length (done.length + (b :: rest).length)), none⟩) (.byte done.length) =
        some ({ m with
            data := Function.update m.data ((r.offset &&& (cap.val - 1)) + done.length) b },
          ⟨.copy r (done ++ b :: rest)
            (Finset.Ico (done.length + 1) (done.length + (b :: rest).length)), none⟩) := by
      have hget : (done ++ b :: rest)[done.length]? = some b := by simp
      have hmem : done.length ∈ Finset.Ico done.length (done.length + (b :: rest).length) := by
        simp
      simp only [writerStep, ArenaWriter.step, hget, if_pos hmem, Finset.Ico_erase_left]
      rfl
    -- the rest is stored with one more byte done
    have hrest := ih (done ++ [b])
      { m with data := Function.update m.data ((r.offset &&& (cap.val - 1)) + done.length) b }
    simp only [List.append_assoc, List.singleton_append, List.length_append, List.length_nil,
      List.length_cons, Nat.add_assoc, Nat.zero_add] at hrest hstep ⊢
    rw [Nat.add_comm 1 rest.length] at hrest
    obtain ⟨as, has⟩ := hrest
    exact ⟨.byte done.length :: as, Transition.run_cons_eq_some.mpr ⟨_, hstep, has⟩⟩

/-- **`writeBlob` is the only writer's call, uninterrupted.** -/
theorem writeBlob_reaches {res : Except RingfireError BlobRef}
    (h : m.writeBlob cap bytes flags = some (res, m')) :
    Transition.Reaches (writerStep cap) (m, ⟨.idle, none⟩) (m', ⟨.idle, some res⟩) := by
  unfold ArenaMem.writeBlob at h
  split at h
  · next e hlen =>
    cases h
    refine ⟨[.call (.writeBlob bytes flags)], Transition.run_cons_eq_some.mpr ⟨_, ?_, rfl⟩⟩
    simp [writerStep, ArenaWriter.step, ArenaCall.len, hlen, ArenaWriter.answer]
  · next r hlen =>
    cases h
    refine ⟨[.call (.writeBlob bytes flags)], Transition.run_cons_eq_some.mpr ⟨_, ?_, rfl⟩⟩
    simp [writerStep, ArenaWriter.step, ArenaCall.len, hlen, ArenaWriter.answer, ArenaCall.bytes]
  · next hlen =>
    split_ifs at h with hfits
    cases h
    obtain ⟨as, has⟩ := copy_reaches cap (grant cap (.writeBlob bytes flags) m.reserved) bytes []
      { m with
        reserved := (place cap m.reserved bytes.length).2
        granted := m.granted ++ [grant cap (.writeBlob bytes flags) m.reserved] }
    refine ⟨.call (.writeBlob bytes flags) :: .tick :: .tick :: as,
      Transition.run_cons_eq_some.mpr ⟨(m, ⟨.load (.writeBlob bytes flags), none⟩), ?_,
        Transition.run_cons_eq_some.mpr
          ⟨(m, ⟨.cas (.writeBlob bytes flags) m.reserved, none⟩), rfl,
            Transition.run_cons_eq_some.mpr ⟨_, ?_, has⟩⟩⟩⟩
    · simp [writerStep, ArenaWriter.step, ArenaCall.len, hlen]
    · simp [writerStep, ArenaWriter.step, ArenaCall.len, hfits, ArenaWriter.reserved,
        ArenaCall.bytes]

/-- Between two calls the result of the last one does not matter. -/
theorem ArenaWriter.Inv.forget {x : ArenaWriter β} (h : x.Inv cap m) :
    (⟨.idle, none⟩ : ArenaWriter β).Inv cap m :=
  ⟨h.allocated, ⟨by rintro _ ⟨⟩, by rintro _ _ _ ⟨⟩, by rintro _ ⟨⟩⟩, h.written,
    by rintro _ _ _ ⟨⟩⟩

theorem ArenaWriter.Inv.writeBlob {res : Except RingfireError BlobRef}
    (h : (⟨.idle, none⟩ : ArenaWriter β).Inv cap m)
    (hw : m.writeBlob cap bytes flags = some (res, m')) :
    (⟨.idle, none⟩ : ArenaWriter β).Inv cap m' := by
  have hreach := (writeBlob_reaches hw).invariant (P := fun s => s.2.Inv cap s.1)
    (fun hs hstep => hs.step (ArenaWriter.step_effect hstep)) h
  exact hreach.forget

/-- What a successful `write_blob` leaves. -/
theorem writeBlob_ok {r : BlobRef} (h : m.writeBlob cap bytes flags = some (.ok r, m')) :
    r.len = bytes.length ∧ (bytes = [] → r = .empty) ∧ m'.written = m.written ++ [(r, bytes)] ∧
      bytes.length ≤ maxLen cap := by
  unfold ArenaMem.writeBlob at h
  split at h
  · cases h
  · next hlen =>
    obtain ⟨hzero, rfl⟩ := checkLen_eq_ok hlen
    cases h
    exact ⟨hzero.symm, fun _ => rfl, rfl, hzero ▸ Nat.zero_le _⟩
  · next hlen =>
    obtain ⟨hne, hle⟩ := checkLen_eq_none.mp hlen
    split_ifs at h
    cases h
    refine ⟨rfl, ?_, rfl, hle⟩
    rintro rfl
    exact absurd rfl hne

/-- Where a successful `write_blob` put its bytes: behind all earlier reservations, unless there
are none. -/
theorem writeBlob_placed {r : BlobRef} (h : m.writeBlob cap bytes flags = some (.ok r, m')) :
    isInBounds cap r = true ∧ r.offset + r.len ≤ m'.reserved ∧ m.reserved ≤ m'.reserved ∧
      (bytes ≠ [] → m.reserved ≤ r.offset ∧ r.flags = flags) := by
  unfold ArenaMem.writeBlob at h
  split at h
  · cases h
  · next hlen =>
    obtain ⟨hzero, rfl⟩ := checkLen_eq_ok hlen
    cases h
    exact ⟨isInBounds_empty, Nat.zero_le _, le_refl _, fun hne =>
      absurd (List.length_eq_zero_iff.mp hzero) hne⟩
  · next hlen =>
    split_ifs at h
    cases h
    have hle := (checkLen_eq_none.mp hlen).2.trans maxLen_le
    have hstart : m.reserved ≤ (place cap m.reserved bytes.length).1 := le_place _ _
    have hslot := le_slotSize bytes.length
    have hend : (place cap m.reserved bytes.length).2 =
        (place cap m.reserved bytes.length).1 + slotSize bytes.length := place_snd _ _
    exact ⟨place_inBounds hle m.reserved flags, (Nat.add_le_add_left hslot _).trans hend.ge,
      hstart.trans ((Nat.le_add_right _ _).trans hend.ge), fun _ => ⟨hstart, rfl⟩⟩

theorem storeBytes_of_lt : ∀ (bytes : List β) (start : ℕ) (data : ℕ → β) {i : ℕ}, i < start →
    storeBytes start bytes data i = data i := by
  intro bytes
  induction bytes with
  | nil =>
    intro start data i _
    rfl
  | cons b bs ih =>
    intro start data i hi
    rw [storeBytes, ih _ _ (Nat.lt_succ_of_lt hi), Function.update_of_ne hi.ne]

/-- What is stored is read back. -/
theorem storeBytes_range : ∀ (bytes : List β) (start : ℕ) (data : ℕ → β),
    (List.range bytes.length).map (fun i => storeBytes start bytes data (start + i)) = bytes := by
  intro bytes
  induction bytes with
  | nil =>
    intro start data
    rfl
  | cons b bs ih =>
    intro start data
    have hfirst : storeBytes (start + 1) bs (Function.update data start b) start = b := by
      rw [storeBytes_of_lt bs _ _ (Nat.lt_succ_self start), Function.update_self]
    have hrest := ih (start + 1) (Function.update data start b)
    simp only [Nat.add_assoc, Nat.add_comm 1] at hrest
    rw [List.length_cons, List.range_succ_eq_map, List.map_cons, List.map_map]
    simp only [storeBytes, Nat.add_zero, hfirst]
    exact congrArg _ hrest

theorem storeBytes_of_le : ∀ (bytes : List β) (start : ℕ) (data : ℕ → β) {i : ℕ},
    start + bytes.length ≤ i → storeBytes start bytes data i = data i := by
  intro bytes
  induction bytes with
  | nil =>
    intro start data i _
    rfl
  | cons b bs ih =>
    intro start data i hi
    rw [List.length_cons] at hi
    rw [storeBytes, ih _ _ (by omega), Function.update_of_ne (by omega)]

/-- **A blob is read back right after it was written.** -/
theorem viewBlob_writeBlob {r : BlobRef} (h : m.writeBlob cap bytes flags = some (.ok r, m')) :
    m'.viewBlob cap r = bytes := by
  unfold ArenaMem.writeBlob at h
  split at h
  · cases h
  · next hlen =>
    obtain ⟨hzero, rfl⟩ := checkLen_eq_ok hlen
    cases h
    rw [List.length_eq_zero_iff.mp hzero]
    rfl
  · split_ifs at h
    cases h
    exact storeBytes_range bytes _ m.data

/-- A blob is left alone by the next `write_blob` as long as it is not lapped. -/
theorem viewBlob_of_writeBlob {r r' : BlobRef}
    (h : m.writeBlob cap bytes flags = some (.ok r', m')) (hb : isInBounds cap r = true)
    (hend : r.offset + r.len ≤ m.reserved) (hlap : isLapped cap m'.reserved r = false) :
    m'.viewBlob cap r = m.viewBlob cap r := by
  obtain ⟨hb', hend', -, hstart⟩ := writeBlob_placed h
  have hlen := (writeBlob_ok h).1
  unfold ArenaMem.writeBlob at h
  split at h
  · cases h
  · cases h
    rfl
  · next hcheck =>
    split_ifs at h
    cases h
    have hne : bytes ≠ [] := by
      rintro rfl
      exact (checkLen_eq_none.mp hcheck).1 rfl
    have hdis := disjoint_of_window hb hb' (hend.trans (hstart hne).1) hend' hlap
    unfold ArenaMem.viewBlob
    refine List.map_congr_left fun i hi => ?_
    have hnot := Finset.disjoint_left.mp hdis
      (Finset.mem_Ico.mpr ⟨Nat.le_add_right _ i, Nat.add_lt_add_left (List.mem_range.mp hi) _⟩)
    rw [byteRange, Finset.mem_Ico, not_and_or, Nat.not_le, Nat.not_lt, hlen] at hnot
    rcases hnot with hlt | hge
    · exact storeBytes_of_lt _ _ _ hlt
    · exact storeBytes_of_le _ _ _ hge

/-- A refused `write_blob` changes nothing. -/
theorem writeBlob_error {e : RingfireError}
    (h : m.writeBlob cap bytes flags = some (.error e, m')) :
    m' = m ∧ maxLen cap < bytes.length ∧
      e = .arenaPayloadTooLarge bytes.length (maxLen cap) := by
  unfold ArenaMem.writeBlob at h
  split at h
  · next hlen =>
    cases h
    unfold checkLen at hlen
    split_ifs at hlen with h0 hmax
    · cases hlen
    · simp only [Option.some.injEq, Except.error.injEq] at hlen
      exact ⟨rfl, hmax, hlen.symm⟩
  · cases h
  · split_ifs at h
    cases h

/-- A written blob that is not lapped is read back. -/
theorem ArenaWriter.Inv.viewBlob {x : ArenaWriter β} (h : x.Inv cap m) {r : BlobRef}
    (hw : (r, bytes) ∈ m.written) (hlap : isLapped cap m.reserved r = false) :
    m.viewBlob cap r = bytes := by
  obtain ⟨hgr, hlen, hst⟩ := h.written r bytes hw
  have hb := (h.allocated.placed r hgr).1
  -- the slice is a copy taken at one moment
  have hcopy : (BlobReadPc.done false
      fun i => m.data ((r.offset &&& (cap.val - 1)) + i)).Sound cap m r bytes := by
    intro _ i b hi
    obtain ⟨hlt, -⟩ := List.getElem?_eq_some_iff.mp hi
    simp only
    rw [index_eq_mod hb (by omega)]
    exact hst hlap i b hi (Finset.notMem_empty i)
  exact hcopy.eq_bytes hlen

end Ringfire
