import Ringfire.Arena.Reserve
import Ringfire.Foundation.Transition

/-!
# The payload arena as a system

Any number of threads reserve and write blobs, and any number of readers copy blobs out, each
taking one memory access at a time in any order. A writer checks the length, then loops: load
`reserved`, compute its place, compare-and-swap; the weak compare-and-swap may fail for no
reason. A `write_blob` then stores its bytes in any order. A reader that was handed a `BlobRef`
copies its bytes in any order and evaluates `is_lapped` at the end.

The counter alone decides who owns which bytes: everything about reservations holds for any
number of writers. What the bytes are is another matter. A writer that stalls between its
reservation and its stores may be lapped itself and then overwrite a newer blob, so the contents
are proved for a single writer, as `BlobProducer` and `MirrorRing` use the arena.

## Main definitions

* `ArenaWriter.step`, `BlobReadPc.step`: one memory access of a writer, of a reader
* `ArenaMem.Allocated`: the reservations made so far lie one behind the other
* `ArenaWriter.Inv`: what the bytes of the arena are, when one writer stores them

## Main results

* `ArenaMem.Allocated.step`, `ArenaWriter.Inv.step`: every step preserves them
* `arena_allocation`: reservations are contiguous and disjoint, and a copy that was not lapped is
  exact
-/

namespace Ringfire

open PayloadArena

variable {β : Type}

/-- The arena in shared memory. -/
structure ArenaMem (β : Type) where
  reserved : ℕ
  data : ℕ → β
  /-- The descriptors `reserve` has handed out, in the order of the compare-and-swaps. -/
  granted : List BlobRef
  /-- The blobs whose bytes have all been stored. -/
  written : List (BlobRef × List β)

/-- The calls that reserve. The closure of `write_blob_with` fills the slice with some bytes, so
the call is a `write_blob` of those. -/
inductive ArenaCall (β : Type) where
  | reserve (len flags : ℕ)
  | writeBlob (bytes : List β) (flags : ℕ)

namespace ArenaCall

/-- The length asked for. -/
def len : ArenaCall β → ℕ
  | reserve len _ => len
  | writeBlob bytes _ => bytes.length

/-- The flags of the descriptor. -/
def flags : ArenaCall β → ℕ
  | reserve _ flags => flags
  | writeBlob _ flags => flags

/-- The bytes stored once the place is known. -/
def bytes : ArenaCall β → Option (List β)
  | reserve _ _ => none
  | writeBlob bytes _ => some bytes

end ArenaCall

/-- Where a writer stands. -/
inductive WriterPc (β : Type) where
  | idle
  | load (c : ArenaCall β)
  | cas (c : ArenaCall β) (curr : ℕ)
  | copy (r : BlobRef) (bytes : List β) (left : Finset ℕ)

/-- A writer, with the result of its last call. -/
structure ArenaWriter (β : Type) where
  pc : WriterPc β
  result : Option (Except RingfireError BlobRef)

/-- A writer's step: the start of a call, the store of one byte, a compare-and-swap that fails
spuriously, or whatever comes next. -/
inductive WriterLabel (β : Type) where
  | call (c : ArenaCall β)
  | byte (i : ℕ)
  | spurious
  | tick

/-- A freshly initialized arena. -/
def ArenaMem.init [Inhabited β] : ArenaMem β := ⟨0, fun _ => default, [], []⟩

/-- The descriptor a compare-and-swap from `curr` obtains. -/
def grant (cap : ArenaCapacity) (c : ArenaCall β) (curr : ℕ) : BlobRef :=
  ⟨(place cap curr c.len).1, c.len, c.flags⟩

namespace ArenaWriter

/-- The end of a call that stored nothing in the arena. -/
def answer (m : ArenaMem β) (c : ArenaCall β) :
    Except RingfireError BlobRef → ArenaMem β × ArenaWriter β
  | .ok r =>
    ({ m with
        granted := m.granted ++ [r]
        written := m.written ++ (c.bytes.map fun bytes => (r, bytes)).toList },
      ⟨.idle, some (.ok r)⟩)
  | .error e => (m, ⟨.idle, some (.error e)⟩)

/-- What a writer does once its reservation succeeded. -/
def reserved (m : ArenaMem β) (c : ArenaCall β) (r : BlobRef) : ArenaMem β × ArenaWriter β :=
  match c.bytes with
  | none => (m, ⟨.idle, some (.ok r)⟩)
  | some bytes => (m, ⟨.copy r bytes (Finset.range bytes.length), none⟩)

/-- One memory access of a writer. A reservation that would take the counter to `2 ^ 64` is not
enabled. -/
def step (cap : ArenaCapacity) (m : ArenaMem β) (x : ArenaWriter β) (a : WriterLabel β) :
    Option (ArenaMem β × ArenaWriter β) :=
  match x.pc, a with
  | .idle, .call c =>
    -- an empty blob and one that can never fit are answered without a reservation
    match checkLen cap c.len with
    | some r => some (answer m c r)
    | none => some (m, ⟨.load c, none⟩)
  | .load c, .tick => some (m, ⟨.cas c m.reserved, none⟩)
  | .cas c curr, .tick =>
    if m.reserved = curr then
      if (place cap curr c.len).2 ≤ u64Max then
        some (reserved { m with
          reserved := (place cap curr c.len).2
          granted := m.granted ++ [grant cap c curr] } c (grant cap c curr))
      else none
    else some (m, ⟨.load c, none⟩)
  -- `compare_exchange_weak` may fail for no reason
  | .cas c _, .spurious => some (m, ⟨.load c, none⟩)
  -- the bytes of the slice, in any order
  | .copy r bytes left, .byte i =>
    match bytes[i]? with
    | some b =>
      if i ∈ left then
        some ({ m with data := Function.update m.data ((r.offset &&& (cap.val - 1)) + i) b },
          ⟨.copy r bytes (left.erase i), none⟩)
      else none
    | none => none
  | .copy r bytes left, .tick =>
    if left = ∅ then some ({ m with written := m.written ++ [(r, bytes)] }, ⟨.idle, some (.ok r)⟩)
    else none
  | _, _ => none

/-- The call whose place is not reserved yet. -/
def pending (x : ArenaWriter β) : Option (ArenaCall β) :=
  match x.pc with
  | .load c | .cas c _ => some c
  | _ => none

/-- What a step of a writer does to the arena. -/
inductive Effect (cap : ArenaCapacity) (m : ArenaMem β) (x : ArenaWriter β) (m' : ArenaMem β)
    (x' : ArenaWriter β) : Prop where
  | silent (mem : m' = m) (idle : ∀ r bytes left, x'.pc ≠ .copy r bytes left)
      (pending : ∀ c, x'.pending = some c → x.pending = some c ∨ c.len ≤ cap.val)
      (result : ∀ r, x'.result ≠ some (.ok r))
  | empty (c : ArenaCall β) (len : c.len = 0)
      (mem : m' = { m with
        granted := m.granted ++ [.empty]
        written := m.written ++ (c.bytes.map fun bytes => (.empty, bytes)).toList })
      (next : x' = ⟨.idle, some (.ok .empty)⟩)
  | grant (c : ArenaCall β) (pending : x.pending = some c)
      (fits : (place cap m.reserved c.len).2 ≤ u64Max)
      (mem : m' = { m with
        reserved := (place cap m.reserved c.len).2
        granted := m.granted ++ [Ringfire.grant cap c m.reserved] })
      (next : (c.bytes = none ∧ x' = ⟨.idle, some (.ok (Ringfire.grant cap c m.reserved))⟩) ∨
        ∃ bytes, c.bytes = some bytes ∧ x' =
          ⟨.copy (Ringfire.grant cap c m.reserved) bytes (Finset.range bytes.length), none⟩)
  | store (r : BlobRef) (bytes : List β) (left : Finset ℕ) (i : ℕ) (b : β)
      (pc : x.pc = .copy r bytes left) (byte : bytes[i]? = some b) (mem_left : i ∈ left)
      (mem : m' = { m with
        data := Function.update m.data ((r.offset &&& (cap.val - 1)) + i) b })
      (next : x' = ⟨.copy r bytes (left.erase i), none⟩)
  | finish (r : BlobRef) (bytes : List β) (pc : x.pc = .copy r bytes ∅)
      (mem : m' = { m with written := m.written ++ [(r, bytes)] })
      (next : x' = ⟨.idle, some (.ok r)⟩)

variable {cap : ArenaCapacity} {m m' : ArenaMem β} {x x' : ArenaWriter β} {a : WriterLabel β}

theorem step_effect (h : x.step cap m a = some (m', x')) : Effect cap m x m' x' := by
  unfold step at h
  split at h
  -- a call: `reserve` may answer at once
  case h_1 c hpc =>
    split at h
    · next r hr =>
      cases r with
      | ok r =>
        obtain ⟨hlen, rfl⟩ := checkLen_eq_ok hr
        cases h
        exact .empty c hlen rfl rfl
      | error e =>
        cases h
        exact .silent rfl (by rintro _ _ _ ⟨⟩) (by rintro _ ⟨⟩) (by rintro _ ⟨⟩)
    · next hr =>
      cases h
      refine .silent rfl (by rintro _ _ _ ⟨⟩) ?_ (by rintro _ ⟨⟩)
      rintro _ ⟨⟩
      exact .inr ((checkLen_eq_none.mp hr).2.trans maxLen_le)
  -- the loop of `reserve`; only the compare and swap that succeeds changes the counter
  case h_2 c hpc =>
    cases h
    refine .silent rfl (by rintro _ _ _ ⟨⟩) ?_ (by rintro _ ⟨⟩)
    rintro _ ⟨⟩
    exact .inl (by simp only [pending, hpc])
  case h_3 c curr hpc =>
    have hpending : x.pending = some c := by simp only [pending, hpc]
    split_ifs at h with hcurr hfits
    · subst hcurr
      refine .grant c hpending hfits ?_ ?_
      · unfold reserved at h
        split at h <;> cases h <;> rfl
      · unfold reserved at h
        split at h <;> cases h
        · next hb => exact .inl ⟨hb, rfl⟩
        · next bytes hb => exact .inr ⟨bytes, hb, rfl⟩
    · cases h
      refine .silent rfl (by rintro _ _ _ ⟨⟩) ?_ (by rintro _ ⟨⟩)
      rintro _ ⟨⟩
      exact .inl hpending
  case h_4 c curr hpc =>
    cases h
    refine .silent rfl (by rintro _ _ _ ⟨⟩) ?_ (by rintro _ ⟨⟩)
    rintro _ ⟨⟩
    exact .inl (by simp only [pending, hpc])
  -- the copy of `write_blob`
  case h_5 r bytes left i hpc =>
    split at h
    · next b hb =>
      split_ifs at h with hmem
      cases h
      exact .store r bytes left i b hpc hb hmem rfl rfl
    · cases h
  case h_6 r bytes left hpc =>
    split_ifs at h with hl
    cases h
    subst hl
    exact .finish r bytes hpc rfl rfl
  case h_7 => cases h

end ArenaWriter

/-! ## Reservations, for any number of writers -/

/-- The reservations made so far lie one behind the other, below the counter. -/
structure ArenaMem.Allocated (cap : ArenaCapacity) (m : ArenaMem β) : Prop where
  dvd : 64 ∣ m.reserved
  placed : ∀ r ∈ m.granted, isInBounds cap r = true ∧ r.offset + r.len ≤ m.reserved
  ordered : m.granted.Pairwise fun r r' => r'.len = 0 ∨ r.offset + r.len ≤ r'.offset

/-- What a writer holds was granted to it. -/
structure ArenaWriter.Valid (cap : ArenaCapacity) (m : ArenaMem β) (x : ArenaWriter β) : Prop where
  pending : ∀ c, x.pending = some c → c.len ≤ cap.val
  copying : ∀ r bytes left, x.pc = .copy r bytes left → r ∈ m.granted ∧ r.len = bytes.length
  result : ∀ r, x.result = some (.ok r) → r ∈ m.granted

variable {cap : ArenaCapacity} {m m' : ArenaMem β} {x x' : ArenaWriter β}

theorem grant_inBounds {c : ArenaCall β} (h : c.len ≤ cap.val) (curr : ℕ) :
    isInBounds cap (grant cap c curr) = true :=
  place_inBounds h curr c.flags

theorem grant_end_le (c : ArenaCall β) (curr : ℕ) :
    (grant cap c curr).offset + (grant cap c curr).len ≤ (place cap curr c.len).2 := by
  rw [place_snd]
  exact Nat.add_le_add_left (le_slotSize c.len) _

theorem le_grant_offset (c : ArenaCall β) (curr : ℕ) : curr ≤ (grant cap c curr).offset :=
  le_place curr c.len

theorem le_place_snd (curr len : ℕ) : curr ≤ (place cap curr len).2 := by
  rw [place_snd]
  exact (le_place curr len).trans (Nat.le_add_right _ _)

namespace ArenaWriter.Effect

/-- The counter never decreases. -/
theorem reserved_le (he : Effect cap m x m' x') : m.reserved ≤ m'.reserved := by
  cases he with
  | silent mem | empty _ _ mem | store _ _ _ _ _ _ _ _ mem | finish _ _ _ mem =>
    subst mem
    exact le_refl _
  | grant c pending fits mem next =>
    subst mem
    exact le_place_snd m.reserved c.len

/-- What was granted stays granted. -/
theorem granted_subset (he : Effect cap m x m' x') : ∀ r ∈ m.granted, r ∈ m'.granted := by
  intro r hr
  cases he with
  | silent mem | store _ _ _ _ _ _ _ _ mem | finish _ _ _ mem =>
    subst mem
    exact hr
  | empty _ _ mem | grant _ _ _ mem =>
    subst mem
    exact List.mem_append_left _ hr

/-- What was written stays written. -/
theorem written_subset (he : Effect cap m x m' x') : ∀ b ∈ m.written, b ∈ m'.written := by
  intro b hb
  cases he with
  | silent mem | store _ _ _ _ _ _ _ _ mem | grant _ _ _ mem =>
    subst mem
    exact hb
  | empty _ _ mem | finish _ _ _ mem =>
    subst mem
    exact List.mem_append_left _ hb

end ArenaWriter.Effect

theorem ArenaMem.Allocated.step (h : m.Allocated cap) (hx : x.Valid cap m)
    (he : ArenaWriter.Effect cap m x m' x') : m'.Allocated cap := by
  cases he with
  | silent mem | store _ _ _ _ _ _ _ _ mem | finish _ _ _ mem =>
    subst mem
    exact ⟨h.dvd, h.placed, h.ordered⟩
  | empty c len mem next =>
    subst mem
    refine ⟨h.dvd, ?_, ?_⟩
    · intro r hr
      rcases List.mem_append.mp hr with hr | hr
      · exact h.placed r hr
      · rw [List.mem_singleton.mp hr]
        exact ⟨isInBounds_empty, Nat.zero_le _⟩
    · rw [List.pairwise_append]
      refine ⟨h.ordered, List.pairwise_singleton _ _, fun r hr r' hr' => .inl ?_⟩
      rw [List.mem_singleton.mp hr']
      rfl
  | grant c pending fits mem next =>
    subst mem
    have hlen := hx.pending c pending
    refine ⟨(place_dvd h.dvd c.len).2, ?_, ?_⟩
    · intro r hr
      rcases List.mem_append.mp hr with hr | hr
      · exact ⟨(h.placed r hr).1, (h.placed r hr).2.trans (le_place_snd m.reserved c.len)⟩
      · rw [List.mem_singleton.mp hr]
        exact ⟨grant_inBounds hlen m.reserved, grant_end_le c m.reserved⟩
    · -- the new reservation starts at or above the old counter
      rw [List.pairwise_append]
      refine ⟨h.ordered, List.pairwise_singleton _ _, fun r hr r' hr' => .inr ?_⟩
      rw [List.mem_singleton.mp hr']
      exact (h.placed r hr).2.trans (le_grant_offset c m.reserved)

theorem ArenaWriter.Valid.mono (h : x.Valid cap m) (hsub : ∀ r ∈ m.granted, r ∈ m'.granted) :
    x.Valid cap m' :=
  ⟨h.pending, fun r bytes left hpc => ⟨hsub r (h.copying r bytes left hpc).1,
    (h.copying r bytes left hpc).2⟩, fun r hr => hsub r (h.result r hr)⟩

theorem ArenaWriter.Valid.step (h : x.Valid cap m) (he : ArenaWriter.Effect cap m x m' x') :
    x'.Valid cap m' := by
  have hsub := he.granted_subset
  cases he with
  | silent mem idle pending result =>
    exact ⟨fun c hc => (pending c hc).elim (h.pending c) id,
      fun r bytes left hpc => absurd hpc (idle r bytes left), fun r hr => absurd hr (result r)⟩
  | empty c len mem next =>
    subst mem next
    refine ⟨by rintro _ ⟨⟩, by rintro _ _ _ ⟨⟩, ?_⟩
    rintro _ ⟨⟩
    exact List.mem_append_right _ (List.mem_singleton_self _)
  | grant c pending fits mem next =>
    subst mem
    have hself := List.mem_append_right m.granted
      (List.mem_singleton_self (Ringfire.grant cap c m.reserved))
    rcases next with ⟨-, rfl⟩ | ⟨bytes, hbytes, rfl⟩
    · refine ⟨by rintro _ ⟨⟩, by rintro _ _ _ ⟨⟩, ?_⟩
      rintro _ ⟨⟩
      exact hself
    · refine ⟨by rintro _ ⟨⟩, ?_, by rintro _ ⟨⟩⟩
      rintro _ _ _ ⟨⟩
      refine ⟨hself, ?_⟩
      cases c with
      | reserve => cases hbytes
      | writeBlob => cases hbytes; rfl
  | store r bytes left i b pc byte mem_left mem next =>
    subst next
    refine ⟨by rintro _ ⟨⟩, ?_, by rintro _ ⟨⟩⟩
    rintro _ _ _ ⟨⟩
    exact ⟨hsub r (h.copying r bytes left pc).1, (h.copying r bytes left pc).2⟩
  | finish r bytes pc mem next =>
    subst next
    refine ⟨by rintro _ ⟨⟩, by rintro _ _ _ ⟨⟩, ?_⟩
    rintro _ ⟨⟩
    exact hsub r (h.copying r bytes ∅ pc).1

/-! ## Contents, for a single writer -/

/-- The bytes of the blob `r` outside `left` are in the arena. -/
def Stored (cap : ArenaCapacity) (m : ArenaMem β) (r : BlobRef) (bytes : List β)
    (left : Finset ℕ) : Prop :=
  ∀ i b, bytes[i]? = some b → i ∉ left → m.data ((r.offset + i) % cap.val) = b

/-- What the bytes of the arena are, when `x` is the only writer: every blob written is intact
until the counter laps it. -/
structure ArenaWriter.Inv (cap : ArenaCapacity) (m : ArenaMem β) (x : ArenaWriter β) : Prop where
  allocated : m.Allocated cap
  valid : x.Valid cap m
  written : ∀ r bytes, (r, bytes) ∈ m.written → r ∈ m.granted ∧ r.len = bytes.length ∧
    (isLapped cap m.reserved r = false → Stored cap m r bytes ∅)
  copying : ∀ r bytes left, x.pc = .copy r bytes left → Stored cap m r bytes left ∧
    ∀ r' bytes', (r', bytes') ∈ m.written → r'.offset + r'.len ≤ r.offset

/-- Storing a byte of a later blob does not touch an earlier one that is not lapped. -/
theorem Stored.store {r r' : BlobRef} {bytes : List β} {left : Finset ℕ} {j : ℕ} {b : β}
    (h : Stored cap m r bytes left) (hlen : r.len = bytes.length)
    (hb : isInBounds cap r' = true) (hle : r.offset + r.len ≤ r'.offset)
    (hend : r'.offset + r'.len ≤ m.reserved) (hj : j < r'.len)
    (hlap : isLapped cap m.reserved r = false) :
    Stored cap { m with data := Function.update m.data ((r'.offset &&& (cap.val - 1)) + j) b } r
      bytes left := by
  intro i c hc hi
  rw [isLapped_eq_false] at hlap
  obtain ⟨hlt, -⟩ := List.getElem?_eq_some_iff.mp hc
  rw [index_eq_mod hb hj]
  simp only
  rw [Function.update_of_ne (Cyclic.mod_ne_of_lt (by omega) (by omega))]
  exact h i c hc hi

/-- Storing byte `j` of the blob itself. -/
theorem Stored.store_self {r : BlobRef} {bytes : List β} {left : Finset ℕ} {j : ℕ} {b : β}
    (h : Stored cap m r bytes left) (hlen : r.len = bytes.length)
    (hb : isInBounds cap r = true) (hj : bytes[j]? = some b) :
    Stored cap { m with data := Function.update m.data ((r.offset &&& (cap.val - 1)) + j) b } r
      bytes (left.erase j) := by
  intro i c hc hi
  obtain ⟨hilt, -⟩ := List.getElem?_eq_some_iff.mp hc
  obtain ⟨hjlt, -⟩ := List.getElem?_eq_some_iff.mp hj
  have hcap := isInBounds_iff.mp hb
  rw [index_eq_mod hb (by omega)]
  simp only
  by_cases hij : i = j
  · subst hij
    rw [Function.update_self]
    exact Option.some_injective _ (hj.symm.trans hc)
  · rw [Function.update_of_ne, h i c hc]
    · simpa [hij] using hi
    · -- both indices lie in one arena length
      rw [Cyclic.add_mod_of_le (by omega), Cyclic.add_mod_of_le (by omega)]
      omega

/-- What a lapped blob was stays lapped. -/
theorem isLapped_mono {reserved reserved' : ℕ} {r : BlobRef} (hle : reserved ≤ reserved')
    (h : isLapped cap reserved' r = false) : isLapped cap reserved r = false := by
  rw [isLapped_eq_false] at h ⊢
  exact hle.trans h

theorem Stored.nil (m : ArenaMem β) (r : BlobRef) (left : Finset ℕ) : Stored cap m r [] left := by
  rintro i b ⟨⟩

/-- **The only writer keeps every blob intact until it is lapped.** -/
theorem ArenaWriter.Inv.step (h : x.Inv cap m) (he : ArenaWriter.Effect cap m x m' x') :
    x'.Inv cap m' := by
  -- what is written stays until it is lapped, and so does what is copied
  refine ⟨h.allocated.step h.valid he, h.valid.step he, ?_, ?_⟩
  · intro r bytes hmem
    cases he with
    | silent mem =>
      subst mem
      exact h.written r bytes hmem
    | empty c len mem next =>
      subst mem
      rcases List.mem_append.mp hmem with hmem | hmem
      · obtain ⟨hgr, hlen, hst⟩ := h.written r bytes hmem
        exact ⟨List.mem_append_left _ hgr, hlen, hst⟩
      · -- an empty blob has no bytes to lose
        cases c with
        | reserve => cases hmem
        | writeBlob bs flags =>
          cases List.mem_singleton.mp hmem
          obtain rfl := List.length_eq_zero_iff.mp len
          exact ⟨List.mem_append_right _ (List.mem_singleton_self _), rfl, fun _ => .nil _ _ _⟩
    | grant c pending fits mem next =>
      subst mem
      obtain ⟨hgr, hlen, hst⟩ := h.written r bytes hmem
      exact ⟨List.mem_append_left _ hgr, hlen,
        fun hlap => hst (isLapped_mono (le_place_snd m.reserved c.len) hlap)⟩
    | store r' bytes' left i b pc byte mem_left mem next =>
      subst mem
      obtain ⟨hgr, hlen, hst⟩ := h.written r bytes hmem
      obtain ⟨hgr', hlen'⟩ := h.valid.copying r' bytes' left pc
      obtain ⟨hb', hend'⟩ := h.allocated.placed r' hgr'
      obtain ⟨hilt, -⟩ := List.getElem?_eq_some_iff.mp byte
      refine ⟨hgr, hlen, fun hlap => ?_⟩
      exact (hst hlap).store hlen hb' ((h.copying r' bytes' left pc).2 r bytes hmem) hend'
        (by omega) hlap
    | finish r' bytes' pc mem next =>
      subst mem
      rcases List.mem_append.mp hmem with hmem | hmem
      · exact h.written r bytes hmem
      · cases List.mem_singleton.mp hmem
        obtain ⟨hgr, hlen⟩ := h.valid.copying r bytes ∅ pc
        exact ⟨hgr, hlen, fun _ => (h.copying r bytes ∅ pc).1⟩
  · intro r bytes left hpc
    cases he with
    | silent mem idle => exact absurd hpc (idle r bytes left)
    | empty _ _ _ next | finish _ _ _ _ next =>
      subst next
      cases hpc
    | grant c pending fits mem next =>
      subst mem
      rcases next with ⟨-, rfl⟩ | ⟨bs, hbytes, rfl⟩
      · cases hpc
      · cases hpc
        constructor
        · intro i b hib hi
          obtain ⟨hlt, -⟩ := List.getElem?_eq_some_iff.mp hib
          exact absurd (Finset.mem_range.mpr hlt) hi
        · intro r' bytes' hmem
          exact (h.allocated.placed r' (h.written r' bytes' hmem).1).2.trans
            (le_grant_offset c m.reserved)
    | store r' bytes' left' i b pc byte mem_left mem next =>
      subst mem next
      cases hpc
      obtain ⟨hgr, hlen⟩ := h.valid.copying r bytes left' pc
      obtain ⟨hst, hbelow⟩ := h.copying r bytes left' pc
      exact ⟨hst.store_self hlen (h.allocated.placed r hgr).1 byte, hbelow⟩

theorem ArenaWriter.Inv.init [Inhabited β] (cap : ArenaCapacity) :
    (⟨.idle, none⟩ : ArenaWriter β).Inv cap .init where
  allocated := ⟨Nat.dvd_zero 64 |>.trans (dvd_refl 0), by rintro _ ⟨⟩, .nil⟩
  valid := ⟨by rintro _ ⟨⟩, by rintro _ _ _ ⟨⟩, by rintro _ ⟨⟩⟩
  written := by rintro _ _ ⟨⟩
  copying := by rintro _ _ _ ⟨⟩

/-! ## Readers -/

/-- Where a thread copying a blob out of the arena stands. -/
inductive BlobReadPc (β : Type) where
  | copy (left : Finset ℕ) (buf : ℕ → β)
  | done (lapped : Bool) (buf : ℕ → β)

namespace BlobReadPc

/-- Nothing copied yet. -/
def start [Inhabited β] (r : BlobRef) : BlobReadPc β := .copy (Finset.range r.len) fun _ => default

/-- One memory access: `some i` copies byte `i`, `none` evaluates `is_lapped`. -/
def step (cap : ArenaCapacity) (m : ArenaMem β) (r : BlobRef) :
    BlobReadPc β → Option ℕ → Option (BlobReadPc β)
  | .copy left buf, some i =>
    if i ∈ left then
      some (.copy (left.erase i)
        (Function.update buf i (m.data ((r.offset &&& (cap.val - 1)) + i))))
    else none
  | .copy left buf, none =>
    -- `reserved` is loaded after the copy
    if left = ∅ then some (.done (isLapped cap m.reserved r) buf) else none
  | .done _ _, _ => none

/-- What the copy is worth, when `bytes` was written under `r`: until the blob is lapped, what was
copied is right. -/
def Sound (cap : ArenaCapacity) (m : ArenaMem β) (r : BlobRef) (bytes : List β) :
    BlobReadPc β → Prop
  | .copy left buf => isLapped cap m.reserved r = false →
      ∀ i b, bytes[i]? = some b → i ∉ left → buf i = b
  | .done lapped buf => lapped = false → ∀ i b, bytes[i]? = some b → buf i = b

variable {r : BlobRef} {bytes : List β} {rd rd' : BlobReadPc β}

theorem Sound.start [Inhabited β] (m : ArenaMem β) (hlen : r.len = bytes.length) :
    (BlobReadPc.start r).Sound cap m r bytes := by
  intro _ i b hb hi
  obtain ⟨hlt, -⟩ := List.getElem?_eq_some_iff.mp hb
  exact absurd (Finset.mem_range.mpr (hlen ▸ hlt)) hi

/-- A copy stays right when the counter moves on: it only gets less likely to be used. -/
theorem Sound.mono (h : rd.Sound cap m r bytes) (hle : m.reserved ≤ m'.reserved) :
    rd.Sound cap m' r bytes := by
  cases rd with
  | copy left buf => exact fun hlap => h (isLapped_mono hle hlap)
  | done lapped buf => exact h

theorem Sound.step {a : Option ℕ} (h : rd.Sound cap m r bytes) (hlen : r.len = bytes.length)
    (hb : isInBounds cap r = true)
    (hst : isLapped cap m.reserved r = false → Stored cap m r bytes ∅)
    (hstep : rd.step cap m r a = some rd') : rd'.Sound cap m r bytes := by
  cases rd with
  | done lapped buf => cases hstep
  | copy left buf =>
    cases a with
    | some i =>
      simp only [BlobReadPc.step] at hstep
      split_ifs at hstep with hi
      cases hstep
      intro hlap j b hj hleft
      by_cases hij : j = i
      · subst hij
        obtain ⟨hlt, -⟩ := List.getElem?_eq_some_iff.mp hj
        rw [Function.update_self, index_eq_mod hb (by omega)]
        exact hst hlap j b hj (Finset.notMem_empty j)
      · rw [Function.update_of_ne hij]
        exact h hlap j b hj (by simpa [hij] using hleft)
    | none =>
      simp only [BlobReadPc.step] at hstep
      split_ifs at hstep with hl
      cases hstep
      subst hl
      intro hlap j b hj
      exact h hlap j b hj (Finset.notMem_empty j)

/-- A copy that was found not lapped is the blob. -/
theorem Sound.eq_bytes {buf : ℕ → β} (h : (BlobReadPc.done false buf).Sound cap m r bytes)
    (hlen : r.len = bytes.length) : (List.range r.len).map buf = bytes := by
  apply List.ext_getElem?
  intro i
  rcases Nat.lt_or_ge i bytes.length with hi | hi
  · have hb := List.getElem?_eq_getElem hi
    rw [hb, List.getElem?_map, List.getElem?_range (by omega)]
    exact congrArg some (h rfl i _ hb)
  · rw [List.getElem?_eq_none hi, List.getElem?_eq_none]
    simpa [hlen] using hi

end BlobReadPc

/-- A reader; `bytes` is what was written under the descriptor it was handed. -/
inductive BlobReader (β : Type) where
  | idle
  | reading (r : BlobRef) (bytes : List β) (pc : BlobReadPc β)

/-! ## The system -/

/-- Writers `κ` and readers `ρ` around one arena. -/
structure ArenaSystem (κ ρ β : Type) where
  mem : ArenaMem β
  writers : κ → ArenaWriter β
  readers : ρ → BlobReader β

/-- Who moves: `obtain` hands a reader the `i`-th blob written. -/
inductive ArenaLabel (κ ρ β : Type) where
  | writer (k : κ) (a : WriterLabel β)
  | obtain (x : ρ) (i : ℕ)
  | reader (x : ρ) (a : Option ℕ)

namespace ArenaSystem

variable {κ ρ : Type}

/-- A fresh arena. -/
def create [Inhabited β] : ArenaSystem κ ρ β := ⟨.init, fun _ => ⟨.idle, none⟩, fun _ => .idle⟩

/-- One memory access of one thread. -/
def step [DecidableEq κ] [DecidableEq ρ] [Inhabited β] (cap : ArenaCapacity)
    (s : ArenaSystem κ ρ β) : ArenaLabel κ ρ β → Option (ArenaSystem κ ρ β)
  | .writer k a =>
    match (s.writers k).step cap s.mem a with
    | some (mem, x) => some { s with mem := mem, writers := Function.update s.writers k x }
    | none => none
  -- a reader gets its reference by other means, once the blob is written
  | .obtain x i =>
    match s.mem.written[i]? with
    | some (r, bytes) =>
      some { s with readers := Function.update s.readers x (.reading r bytes (.start r)) }
    | none => none
  | .reader x a =>
    match s.readers x with
    | .reading r bytes pc =>
      match pc.step cap s.mem r a with
      | some pc' => some { s with readers := Function.update s.readers x (.reading r bytes pc') }
      | none => none
    | .idle => none

/-- What holds of a reader, when one writer stores the bytes. -/
def ReaderInv (cap : ArenaCapacity) (m : ArenaMem β) : BlobReader β → Prop
  | .idle => True
  | .reading r bytes pc => (r, bytes) ∈ m.written ∧ pc.Sound cap m r bytes

/-- The reservations are right; with a single writer, so are the bytes and every copy. -/
structure Inv (cap : ArenaCapacity) (s : ArenaSystem κ ρ β) : Prop where
  allocated : s.mem.Allocated cap
  valid : ∀ k, (s.writers k).Valid cap s.mem
  single : ∀ k, (∀ k', k' = k) → (s.writers k).Inv cap s.mem ∧
    ∀ x, ReaderInv cap s.mem (s.readers x)

variable [DecidableEq κ] [DecidableEq ρ] [Inhabited β] {s s' : ArenaSystem κ ρ β}
  {l : ArenaLabel κ ρ β}

/-- The steps of the system. -/
inductive Move (cap : ArenaCapacity) (s : ArenaSystem κ ρ β) (s' : ArenaSystem κ ρ β) : Prop where
  | writer (k : κ) (mem : ArenaMem β) (x : ArenaWriter β)
      (effect : ArenaWriter.Effect cap s.mem (s.writers k) mem x)
      (next : s' = { s with mem := mem, writers := Function.update s.writers k x })
  | obtain (x : ρ) (r : BlobRef) (bytes : List β) (written : (r, bytes) ∈ s.mem.written)
      (next : s' = { s with readers := Function.update s.readers x (.reading r bytes (.start r)) })
  | reader (x : ρ) (a : Option ℕ) (r : BlobRef) (bytes : List β) (pc pc' : BlobReadPc β)
      (now : s.readers x = .reading r bytes pc) (step : pc.step cap s.mem r a = some pc')
      (next : s' = { s with readers := Function.update s.readers x (.reading r bytes pc') })

theorem step_move (h : s.step cap l = some s') : Move cap s s' := by
  cases l with
  | writer k a =>
    simp only [step] at h
    split at h
    · next mem x hx =>
      cases h
      exact .writer k mem x (ArenaWriter.step_effect hx) rfl
    · cases h
  | obtain x i =>
    simp only [step] at h
    split at h
    · next r bytes hi =>
      cases h
      exact .obtain x r bytes (List.mem_of_getElem? hi) rfl
    · cases h
  | reader x a =>
    simp only [step] at h
    split at h
    · next r bytes pc hx =>
      split at h
      · next pc' hpc =>
        cases h
        exact .reader x a r bytes pc pc' hx hpc rfl
      · cases h
    · cases h

omit [DecidableEq κ] [DecidableEq ρ] [Inhabited β] in
theorem ReaderInv.mono {x : BlobReader β} (h : ReaderInv cap m x)
    (hsub : ∀ b ∈ m.written, b ∈ m'.written) (hle : m.reserved ≤ m'.reserved) :
    ReaderInv cap m' x := by
  cases x with
  | idle => trivial
  | reading r bytes pc => exact ⟨hsub _ h.1, h.2.mono hle⟩

theorem Inv.step (h : s.Inv cap) (hstep : s.step cap l = some s') : s'.Inv cap := by
  cases step_move hstep with
  | writer k mem x effect next =>
    subst next
    refine ⟨h.allocated.step (h.valid k) effect, fun k' => ?_, fun k' hk' => ?_⟩
    · by_cases hk : k' = k
      · subst hk
        simp only [Function.update_self]
        exact ((h.valid k').step effect :)
      · simp only [Function.update_of_ne hk]
        exact ((h.valid k').mono effect.granted_subset :)
    · obtain rfl := hk' k
      obtain ⟨hwriter, hreaders⟩ := h.single k hk'
      refine ⟨?_, fun y => (hreaders y).mono effect.written_subset effect.reserved_le⟩
      simp only [Function.update_self]
      exact (hwriter.step effect :)
  | obtain x r bytes written next =>
    subst next
    refine ⟨h.allocated, h.valid, fun k hk => ⟨(h.single k hk).1, fun y => ?_⟩⟩
    by_cases hy : y = x
    · subst hy
      simp only [Function.update_self]
      exact ⟨written, .start _ ((h.single k hk).1.written r bytes written).2.1⟩
    · simp only [Function.update_of_ne hy]
      exact (h.single k hk).2 y
  | reader x a r bytes pc pc' now hpc next =>
    subst next
    refine ⟨h.allocated, h.valid, fun k hk => ⟨(h.single k hk).1, fun y => ?_⟩⟩
    by_cases hy : y = x
    · subst hy
      simp only [Function.update_self]
      have hread := (h.single k hk).2 y
      rw [now] at hread
      obtain ⟨hgr, hlen, hst⟩ := (h.single k hk).1.written r bytes hread.1
      exact ⟨hread.1, hread.2.step hlen (h.allocated.placed r hgr).1 hst hpc⟩
    · simp only [Function.update_of_ne hy]
      exact (h.single k hk).2 y

omit [DecidableEq κ] [DecidableEq ρ] in
theorem Inv.create (cap : ArenaCapacity) : (create : ArenaSystem κ ρ β).Inv cap :=
  ⟨(ArenaWriter.Inv.init cap).allocated, fun _ => (ArenaWriter.Inv.init cap).valid,
    fun _ _ => ⟨.init cap, fun _ => trivial⟩⟩

theorem Inv.reaches (h : Transition.Reaches (ArenaSystem.step cap) ArenaSystem.create s) :
    s.Inv cap :=
  h.invariant (fun hs hstep => hs.step hstep) (Inv.create cap)

theorem reserved_le_of_step (hstep : s.step cap l = some s') :
    s.mem.reserved ≤ s'.mem.reserved := by
  cases step_move hstep with
  | writer k mem x effect next =>
    subst next
    exact effect.reserved_le
  | obtain _ _ _ _ next | reader _ _ _ _ _ _ _ _ next =>
    subst next
    exact le_refl _

end ArenaSystem

/-- Two reservations that are both not lapped occupy disjoint bytes. -/
theorem ArenaMem.Allocated.disjoint (h : m.Allocated cap) :
    m.granted.Pairwise fun r r' => isLapped cap m.reserved r = false →
      isLapped cap m.reserved r' = false → Disjoint (byteRange cap r) (byteRange cap r') := by
  refine h.ordered.imp_of_mem ?_
  intro r r' hr hr' hord hlap _
  obtain ⟨hb, -⟩ := h.placed r hr
  obtain ⟨hb', hend'⟩ := h.placed r' hr'
  rcases hord with hempty | hle
  · rw [byteRange, byteRange, hempty, Nat.add_zero, Finset.Ico_self]
    exact Finset.disjoint_empty_right _
  · exact disjoint_of_window hb hb' hle hend' hlap

/-- **The arena allocation invariant.** However the callers interleave, the counter is a multiple
of the cache line and never decreases, and the descriptors handed out are contiguous and, while
not lapped, disjoint. When a single writer stores each blob before it reserves the next, a reader
that copies a written blob and then finds it not lapped holds exactly the bytes written. -/
theorem arena_allocation {κ ρ : Type} [DecidableEq κ] [DecidableEq ρ] [Inhabited β]
    {s : ArenaSystem κ ρ β} (h : Transition.Reaches (ArenaSystem.step cap) .create s) :
    64 ∣ s.mem.reserved ∧
    (∀ l s', s.step cap l = some s' → s.mem.reserved ≤ s'.mem.reserved) ∧
    (∀ k r, (s.writers k).result = some (.ok r) → r ∈ s.mem.granted) ∧
    (∀ r ∈ s.mem.granted, isInBounds cap r = true) ∧
    (s.mem.granted.Pairwise fun r r' => isLapped cap s.mem.reserved r = false →
      isLapped cap s.mem.reserved r' = false → Disjoint (byteRange cap r) (byteRange cap r')) ∧
    ∀ k : κ, (∀ k', k' = k) → ∀ x r bytes buf, s.readers x = .reading r bytes (.done false buf) →
      (List.range r.len).map buf = bytes := by
  have hinv := ArenaSystem.Inv.reaches h
  refine ⟨hinv.allocated.dvd, fun l s' hstep => ArenaSystem.reserved_le_of_step hstep,
    fun k r hr => (hinv.valid k).result r hr, fun r hr => (hinv.allocated.placed r hr).1,
    hinv.allocated.disjoint, fun k hk x r bytes buf hx => ?_⟩
  obtain ⟨hwriter, hreaders⟩ := hinv.single k hk
  have hread := hreaders x
  rw [hx] at hread
  exact hread.2.eq_bytes (hwriter.written r bytes hread.1).2.1

/-- An arena of two cache lines. -/
def twoLines : ArenaCapacity := ⟨⟨128, 7, rfl⟩, by decide⟩

/-- Two blobs are written and the second one is read while a third reservation laps the first. -/
theorem arena_allocation_wrap :
    ∃ (s : ArenaSystem Unit Unit ℕ) (buf : ℕ → ℕ),
      s.mem.granted = [⟨0, 100, 0⟩, ⟨128, 2, 0⟩, ⟨192, 1, 0⟩] ∧ s.mem.reserved = 256 ∧
      isLapped twoLines s.mem.reserved ⟨0, 100, 0⟩ = true ∧
      s.readers () = .reading ⟨128, 2, 0⟩ [8, 9] (.done false buf) ∧
      Disjoint (byteRange twoLines ⟨128, 2, 0⟩) (byteRange twoLines ⟨192, 1, 0⟩) ∧
      (List.range 2).map buf = [8, 9] := by
  obtain ⟨s, hs⟩ : ∃ s : ArenaSystem Unit Unit ℕ, Transition.run (ArenaSystem.step twoLines)
      .create [.writer () (.call (.reserve 100 0)), .writer () .tick, .writer () .tick,
        .writer () (.call (.writeBlob [8, 9] 0)), .writer () .tick, .writer () .spurious,
        .writer () .tick, .writer () .tick, .writer () (.byte 1), .writer () (.byte 0),
        .writer () .tick, .obtain () 0, .reader () (some 1),
        .writer () (.call (.reserve 1 0)), .writer () .tick, .writer () .tick,
        .reader () (some 0), .reader () none] = some s := ⟨_, rfl⟩
  obtain ⟨buf, hgranted, hreserved, hread⟩ : ∃ buf,
      s.mem.granted = [⟨0, 100, 0⟩, ⟨128, 2, 0⟩, ⟨192, 1, 0⟩] ∧ s.mem.reserved = 256 ∧
        s.readers () = .reading ⟨128, 2, 0⟩ [8, 9] (.done false buf) := by
    cases hs
    exact ⟨_, rfl, rfl, rfl⟩
  obtain ⟨-, -, -, -, hdisjoint, hbytes⟩ := arena_allocation ⟨_, hs⟩
  rw [hgranted, hreserved] at hdisjoint
  refine ⟨s, buf, hgranted, hreserved, ?_, hread, ?_, hbytes () (fun _ => rfl) () _ _ buf hread⟩
  · rw [hreserved]
    decide
  · simp only [List.pairwise_cons] at hdisjoint
    exact hdisjoint.2.1 ⟨192, 1, 0⟩ (List.mem_singleton_self _) (by decide) (by decide)

end Ringfire
