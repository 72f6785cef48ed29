import Ringfire.Arena.Sequential
import Ringfire.Blob.Live
import Ringfire.Foundation.Observers
import Ringfire.Python.Header
import Ringfire.Replication.Descriptor

/-!
# The blob consumer of the Python client

`BlobConsumer` of `ring.py` reads the channels that a `BlobProducer` writes, without a registry slot
and with a loop of its own. A stale slot ends the call at once. An empty payload is returned without
a look at the arena, where the Rust consumer looks and may find it lapped. `try_recv` is done when
`_next` has found a packet, and hands out a view into the arena; `try_recv_copy` has moved the
cursor by then, copies the bytes and looks at the counter once more.

A packet is read as a whole, although only the metadata and the descriptor are copied. `delivered`
records what the calls returned: the packet with the bytes copied, or with none for a view.

## Main definitions

* `Python.BlobConsumer.step`: one memory access, or the start of a call
* `Python.BlobConsumer.Moves`: the steps, one constructor for each access and outcome
* `Python.blobRefOf`: where a structure of some size makes it look for the descriptor
* `Python.blobLook`: readers in both languages beside a blob channel

## Main results

* `Python.blob_recv_intact`: what a reader returns is the message of its cursor
* `Python.blob_recv_accounted`: between two moments it returns or counts every sequence it passes
-/

namespace Ringfire

open LittleEndian PayloadArena Transition

namespace Python

/-- Where a consumer stands; `copy` for `try_recv_copy`. -/
inductive BlobPc (w : ℕ) (ω : Type) where
  | idle
  | reading (copy : Bool) (rd : ReadPc w ω)
  | lapCheck (copy : Bool) (packet : Payload w ω)
  | skipLoad (copy : Bool) (seen : ℕ)
  | copying (packet : Payload w ω) (rd : BlobReadPc UInt8)

/-- A consumer's step: the start of a call, a word of the slot, a byte of the payload, or whatever
comes next. -/
inductive BlobConsumerLabel (w : ℕ) where
  | call (copy : Bool)
  | word (i : Fin w)
  | byte (i : ℕ)
  | tick

/-- The consumer's own state. -/
structure BlobConsumer (w : ℕ) (ω : Type) extends Account (Payload w ω × Option (List UInt8)) where
  pc : BlobPc w ω

namespace BlobConsumer

variable {w : ℕ} {ω : Type}

/-- A consumer as `__init__` leaves it. -/
def attach (cap : Capacity) (writeSeq : ℕ) : BlobConsumer w ω where
  cursor := oldestRetained writeSeq cap.val
  lappedTotal := 0
  delivered := []
  lapped := []
  jumped := []
  pc := .idle

/-- The top of the loop of `_next`, after the cursor moved to `target`. -/
def lapTo (c : BlobConsumer w ω) (copy : Bool) (target : ℕ) : BlobConsumer w ω :=
  { c with toAccount := c.toAccount.lap target, pc := .reading copy .load }

/-- `_next` returns the packet. -/
def found (ref : Payload w ω → BlobRef) (c : BlobConsumer w ω) (copy : Bool)
    (packet : Payload w ω) : BlobConsumer w ω :=
  if (ref packet).len = 0 then
    { c with toAccount := c.toAccount.deliver (packet, some []), pc := .idle }
  else if copy then
    -- the cursor has moved before anything is copied
    { c with cursor := c.cursor + 1, pc := .copying packet (.start (ref packet)) }
  else { c with toAccount := c.toAccount.deliver (packet, none), pc := .idle }

/-- `_next` once the slot was read. -/
def afterRead (acap : ArenaCapacity) (ref : Payload w ω → BlobRef) (c : BlobConsumer w ω)
    (copy : Bool) : SlotRead (Payload w ω) → BlobConsumer w ω
  | .item packet =>
    if (ref packet).len = 0 then c.found ref copy packet
    else if isInBounds acap (ref packet) = false then c.lapTo copy (c.cursor + 1)
    else { c with pc := .lapCheck copy packet }
  | .overwritten seen => { c with pc := .skipLoad copy seen }
  | .pending => { c with pc := .idle }

/-- `try_recv_copy` after an access of its copy. -/
def afterCopy (ref : Payload w ω → BlobRef) (c : BlobConsumer w ω) (packet : Payload w ω) :
    BlobReadPc UInt8 → BlobConsumer w ω
  | .done true _ =>
    { c with
      lappedTotal := c.lappedTotal + 1
      lapped := c.lapped ++ [c.cursor - 1]
      pc := .reading true .load }
  | .done false buf =>
    { c with
      delivered := c.delivered ++
        [(c.cursor - 1, packet, some ((List.range (ref packet).len).map buf))]
      pc := .idle }
  | rd => { c with pc := .copying packet rd }

/-- One memory access of a consumer. -/
def step [Inhabited ω] (cap : Capacity) (acap : ArenaCapacity) (ref : Payload w ω → BlobRef)
    (m : BlobMemory w ω) (c : BlobConsumer w ω) (a : BlobConsumerLabel w) :
    Option (BlobConsumer w ω) :=
  match c.pc, a with
  | .idle, .call copy => some { c with pc := .reading copy .load }
  | .reading copy rd, .word i =>
    (rd.step (m.slots (slotIndex cap c.cursor)) c.cursor (some i)).map fun rd' =>
      { c with pc := .reading copy rd' }
  | .reading copy rd, .tick =>
    match rd.step (m.slots (slotIndex cap c.cursor)) c.cursor none with
    | some (.done r) => some (c.afterRead acap ref copy r)
    | some rd' => some { c with pc := .reading copy rd' }
    | none => none
  -- `_blob_lapped`, before the packet is returned
  | .lapCheck copy packet, .tick =>
    if isLapped acap m.arena.reserved (ref packet) then some (c.lapTo copy (c.cursor + 1))
    else some (c.found ref copy packet)
  | .skipLoad copy seen, .tick =>
    if c.cursor < oldestRetained (max m.writeSeq seen) cap.val then
      some (c.lapTo copy (oldestRetained (max m.writeSeq seen) cap.val))
    else some { c with pc := .idle }
  -- the slice of the map, and `_blob_lapped` after it
  | .copying packet rd, .byte i =>
    (rd.step acap m.arena (ref packet) (some i)).map (c.afterCopy ref packet)
  | .copying packet rd, .tick =>
    (rd.step acap m.arena (ref packet) none).map (c.afterCopy ref packet)
  | _, _ => none

/-! ## The steps there are -/

variable {cap : Capacity} {acap : ArenaCapacity} {ref : Payload w ω → BlobRef}

/-- What a step is, one case for each memory access of the source and what it leads to. -/
inductive Moves [Inhabited ω] (cap : Capacity) (acap : ArenaCapacity) (ref : Payload w ω → BlobRef)
    (m : BlobMemory w ω) (c : BlobConsumer w ω) : BlobConsumer w ω → Prop where
  | call (copy : Bool) (pc : c.pc = .idle) :
      Moves cap acap ref m c { c with pc := .reading copy .load }
  | read (copy : Bool) (rd rd' : ReadPc w ω) (x : Option (Fin w)) (pc : c.pc = .reading copy rd)
      (step : rd.step (m.slots (slotIndex cap c.cursor)) c.cursor x = some rd') :
      Moves cap acap ref m c { c with pc := .reading copy rd' }
  | done (copy : Bool) (rd : ReadPc w ω) (r : SlotRead (Payload w ω))
      (pc : c.pc = .reading copy rd)
      (step : rd.step (m.slots (slotIndex cap c.cursor)) c.cursor none = some (.done r)) :
      Moves cap acap ref m c (c.afterRead acap ref copy r)
  | lapped (copy : Bool) (packet : Payload w ω) (pc : c.pc = .lapCheck copy packet)
      (lapped : isLapped acap m.arena.reserved (ref packet) = true) :
      Moves cap acap ref m c (c.lapTo copy (c.cursor + 1))
  | found (copy : Bool) (packet : Payload w ω) (pc : c.pc = .lapCheck copy packet) :
      Moves cap acap ref m c (c.found ref copy packet)
  | skip (copy : Bool) (seen : ℕ) (pc : c.pc = .skipLoad copy seen)
      (lt : c.cursor < oldestRetained (max m.writeSeq seen) cap.val) :
      Moves cap acap ref m c (c.lapTo copy (oldestRetained (max m.writeSeq seen) cap.val))
  | giveUp (copy : Bool) (seen : ℕ) (pc : c.pc = .skipLoad copy seen) :
      Moves cap acap ref m c { c with pc := .idle }
  | copy (packet : Payload w ω) (rd rd' : BlobReadPc UInt8) (x : Option ℕ)
      (pc : c.pc = .copying packet rd) (step : rd.step acap m.arena (ref packet) x = some rd') :
      Moves cap acap ref m c (c.afterCopy ref packet rd')

/-- **There are no other steps.** -/
theorem step_moves [Inhabited ω] {m : BlobMemory w ω} {c c' : BlobConsumer w ω}
    {a : BlobConsumerLabel w} (h : c.step cap acap ref m a = some c') :
    Moves cap acap ref m c c' := by
  unfold step at h
  split at h
  case h_1 copy hpc =>
    cases h
    exact .call copy hpc
  case h_2 copy rd i hpc =>
    obtain ⟨rd', hr, rfl⟩ := Option.map_eq_some_iff.mp h
    exact .read copy rd rd' _ hpc hr
  case h_3 copy rd hpc =>
    cases hr : rd.step (m.slots (slotIndex cap c.cursor)) c.cursor none with
    | none =>
      rw [hr] at h
      cases h
    | some rd' =>
      rw [hr] at h
      cases rd' with
      | done r =>
        cases h
        exact .done copy rd r hpc hr
      | load | copy =>
        cases h
        exact .read copy rd _ none hpc hr
  case h_4 copy packet hpc =>
    split_ifs at h with hlapped <;> cases h
    · exact .lapped copy packet hpc hlapped
    · exact .found copy packet hpc
  case h_5 copy seen hpc =>
    split_ifs at h with hlt <;> cases h
    · exact .skip copy seen hpc hlt
    · exact .giveUp copy seen hpc
  case h_6 packet rd i hpc | h_7 packet rd hpc =>
    obtain ⟨rd', hr, rfl⟩ := Option.map_eq_some_iff.mp h
    exact .copy packet rd rd' _ hpc hr
  case h_8 => cases h

/-! ## What a consumer knows -/

/-- The consumer's books. While a payload is copied the cursor is behind its message already. -/
def settled (c : BlobConsumer w ω) : Account (Payload w ω × Option (List UInt8)) :=
  match c.pc with
  | .copying _ _ => { c.toAccount with cursor := c.cursor - 1 }
  | .idle | .reading _ _ | .lapCheck _ _ | .skipLoad _ _ => c.toAccount

/-- What a consumer in the middle of a call knows. -/
def PcSound (cap : Capacity) (acap : ArenaCapacity) (ref : Payload w ω → BlobRef)
    (v : BlobView w ω) (c : BlobConsumer w ω) : Prop :=
  match c.pc with
  | .idle => True
  | .reading _ rd => v.Reads cap c.cursor rd
  | .lapCheck _ packet => v.Holds c.cursor packet ∧ 0 < (ref packet).len
  | .skipLoad _ seen => seen = 0 ∨ v.ring.stored seen
  | .copying packet rd => v.Holds (c.cursor - 1) packet ∧ 0 < (ref packet).len ∧
      v.Copies acap ref (c.cursor - 1) packet rd

/-- A result is the message of its sequence; a view says nothing about the bytes. -/
structure Right (v : BlobView w ω) (n : ℕ) (x : Payload w ω × Option (List UInt8)) : Prop where
  message : v.ring.message n = some x.1
  payload : ∃ bytes, v.payload n = some bytes ∧ ∀ copied, x.2 = some copied → copied = bytes

/-- What holds of a consumer, between any two of its steps. -/
structure Inv (cap : Capacity) (acap : ArenaCapacity) (ref : Payload w ω → BlobRef)
    (v : BlobView w ω) (c : BlobConsumer w ω) : Prop where
  one_le : 1 ≤ c.settled.cursor
  lt : c.settled.cursor < slotWriting
  pc : c.PcSound cap acap ref v
  delivered : ∀ n x, (n, x) ∈ c.delivered → Right v n x

variable {v v' : BlobView w ω} {c c' : BlobConsumer w ω} {packet : Payload w ω}

@[simp] theorem settled_delivered (c : BlobConsumer w ω) : c.settled.delivered = c.delivered := by
  unfold settled
  split <;> rfl

@[simp] theorem settled_lappedTotal (c : BlobConsumer w ω) :
    c.settled.lappedTotal = c.lappedTotal := by
  unfold settled
  split <;> rfl

theorem settled_eq (h : ∀ packet rd, c.pc ≠ .copying packet rd) : c.settled = c.toAccount := by
  unfold settled
  split
  · next packet rd hpc => exact absurd hpc (h packet rd)
  all_goals rfl

theorem Right.evolves {n : ℕ} {x : Payload w ω × Option (List UInt8)} (h : Right v n x)
    (he : v.Evolves v') : Right v' n x := by
  obtain ⟨bytes, hbytes, hcopied⟩ := h.payload
  exact ⟨he.ring.message _ _ h.message, bytes, he.payload _ _ hbytes, hcopied⟩

/-- **What a consumer knows survives the steps of the producer.** -/
theorem Inv.evolves (h : c.Inv cap acap ref v) (he : v.Evolves v') : c.Inv cap acap ref v' := by
  refine ⟨h.one_le, h.lt, ?_, fun n x hx => (h.delivered n x hx).evolves he⟩
  have hpc := h.pc
  have hlt := h.lt
  unfold PcSound settled at *
  split at hpc
  · trivial
  · next hc =>
    rw [hc] at hlt
    exact hpc.evolves hlt he
  · exact ⟨hpc.1.evolves he, hpc.2⟩
  · exact hpc.imp_right (he.ring.stored _)
  · exact ⟨hpc.1.evolves he, hpc.2.1, hpc.2.2.evolves he⟩

theorem Inv.attach (hv : v.Truthful acap ref) :
    (BlobConsumer.attach cap v.ring.writeSeq).Inv cap acap ref v where
  one_le := one_le_oldestRetained _ _
  lt := hv.oldest_lt hv.ring.writeSeq
  pc := trivial
  delivered := by
    intro n x hx
    cases hx

/-! ## What a step does -/

/-- A step keeps what the consumer knows, and its books. -/
structure Advances (cap : Capacity) (acap : ArenaCapacity) (ref : Payload w ω → BlobRef)
    (v : BlobView w ω) (c c' : BlobConsumer w ω) : Prop where
  inv : c'.Inv cap acap ref v
  books : v.Books cap acap ref 1 c.settled c'.settled

/-- The books stay. -/
theorem Advances.stay (h : c.Inv cap acap ref v) (hsettled : c'.settled = c.settled)
    (hpc : c'.PcSound cap acap ref v) : Advances cap acap ref v c c' where
  inv := by
    refine ⟨hsettled ▸ h.one_le, hsettled ▸ h.lt, hpc, fun n x hx => h.delivered n x ?_⟩
    rwa [← settled_delivered, hsettled, settled_delivered] at hx
  books := hsettled ▸ .refl v _

/-- A message is returned. -/
theorem Advances.deliver (h : c.Inv cap acap ref v) {x : Payload w ω × Option (List UInt8)}
    (hsmall : c.settled.cursor + 1 < slotWriting) (hright : Right v c.settled.cursor x)
    (hsettled : c'.settled = c.settled.deliver x) (hpc : c'.pc = .idle) :
    Advances cap acap ref v c c' where
  inv := by
    refine ⟨hsettled ▸ Nat.le_add_left 1 _, hsettled ▸ hsmall, ?_, fun n y hy => ?_⟩
    · unfold PcSound
      rw [hpc]
      trivial
    · rw [← settled_delivered, hsettled] at hy
      rcases List.mem_append.mp hy with hy | hy
      · exact h.delivered n y (settled_delivered c ▸ hy)
      · obtain ⟨rfl, rfl⟩ := Prod.mk.inj (List.mem_singleton.mp hy)
        exact hright
  books := hsettled ▸ .deliver v _ x

/-- The cursor passes lost sequences, and the slot it comes to is read next. -/
theorem Advances.lap (h : c.Inv cap acap ref v) {copy : Bool} {target : ℕ}
    (hle : c.settled.cursor ≤ target) (hlt : target < slotWriting)
    (hlost : ∀ n, c.settled.cursor ≤ n → n < target → v.Lost cap acap ref 1 n)
    (hsettled : c'.settled = c.settled.lap target) (hpc : c'.pc = .reading copy .load) :
    Advances cap acap ref v c c' where
  inv := by
    refine ⟨hsettled ▸ h.one_le.trans hle, hsettled ▸ hlt, ?_, fun n y hy => ?_⟩
    · unfold PcSound
      rw [hpc]
      trivial
    · rw [← settled_delivered, hsettled] at hy
      exact h.delivered n y (settled_delivered c ▸ hy)
  books := hsettled ▸ .lap hle hlost

/-- The cursor passes a message whose payload was overwritten. -/
theorem Advances.lapOne (hv : v.Truthful acap ref) (h : c.Inv cap acap ref v) {copy : Bool}
    (hholds : v.Holds c.settled.cursor packet) (hpos : 0 < (ref packet).len)
    (hlapped : isLapped acap v.arena.reserved (ref packet) = true)
    (hsettled : c'.settled = c.settled.lap (c.settled.cursor + 1))
    (hpc : c'.pc = .reading copy .load) : Advances cap acap ref v c c' := by
  refine .lap h (Nat.le_succ _) (hv.small _ hholds.stored) (fun n hn hn' => ?_) hsettled hpc
  obtain rfl : n = c.settled.cursor := by omega
  exact .lapped packet hholds.message hpos hlapped

/-- `_next` returns the packet. -/
theorem Inv.found (hv : v.Truthful acap ref) (h : c.Inv cap acap ref v) {copy : Bool}
    (hsettled : c.settled = c.toAccount) (hholds : v.Holds c.cursor packet) :
    Advances cap acap ref v c (c.found ref copy packet) := by
  obtain ⟨bytes, hbytes, hkeeps⟩ := hholds.keeps hv
  have hsmall : c.settled.cursor + 1 < slotWriting := by
    rw [hsettled]
    exact hv.small _ hholds.stored
  unfold BlobConsumer.found
  split_ifs with hzero hcopy
  · refine .deliver (x := (packet, some [])) h hsmall ?_ (by rw [hsettled]; rfl) rfl
    rw [hsettled]
    refine ⟨hholds.message, bytes, hbytes, ?_⟩
    rintro _ ⟨⟩
    exact (List.length_eq_zero_iff.mp (hkeeps.len.symm.trans hzero)).symm
  · refine .stay h (by rw [hsettled]; rfl) ⟨hholds, Nat.pos_of_ne_zero hzero, hholds.start hv⟩
  · refine .deliver (x := (packet, none)) h hsmall ?_ (by rw [hsettled]; rfl) rfl
    rw [hsettled]
    exact ⟨hholds.message, bytes, hbytes, by rintro _ ⟨⟩⟩

/-- The slot was read. -/
theorem Inv.afterRead [Inhabited ω] (hv : v.Truthful acap ref) (h : c.Inv cap acap ref v)
    {copy : Bool} {rd : ReadPc w ω} {r : SlotRead (Payload w ω)}
    (hsettled : c.settled = c.toAccount) (hreads : v.Reads cap c.cursor rd)
    (hstep : rd.step (v.ring.slots (slotIndex cap c.cursor)) c.cursor none = some (.done r)) :
    Advances cap acap ref v c (c.afterRead acap ref copy r) := by
  have hpos := h.one_le
  have hlt := h.lt
  rw [hsettled] at hpos hlt
  cases r with
  | item packet =>
    have hholds := hreads.holds hv hpos hlt hstep
    obtain ⟨bytes, -, hkeeps⟩ := hholds.keeps hv
    simp only [BlobConsumer.afterRead, hkeeps.inBounds, Bool.true_eq_false, if_false]
    split_ifs with hzero
    · exact h.found hv hsettled hholds
    · exact .stay h hsettled.symm ⟨hholds, Nat.pos_of_ne_zero hzero⟩
  | overwritten seen => exact .stay h hsettled.symm (hv.overwritten hstep)
  | pending => exact .stay h hsettled.symm trivial

/-- The bytes were copied, or some of them. -/
theorem Inv.afterCopy (hv : v.Truthful acap ref) (h : c.Inv cap acap ref v)
    {rd rd' : BlobReadPc UInt8} {x : Option ℕ} (hpc : c.pc = .copying packet rd)
    (hstep : rd.step acap v.arena (ref packet) x = some rd') :
    Advances cap acap ref v c (c.afterCopy ref packet rd') := by
  have hsound := h.pc
  have hone := h.one_le
  unfold PcSound at hsound
  rw [hpc] at hsound
  obtain ⟨hholds, hpos, hcopies⟩ := hsound
  have hsettled : c.settled = { c.toAccount with cursor := c.cursor - 1 } := by
    unfold settled
    rw [hpc]
  obtain ⟨k, hk⟩ : ∃ k, c.cursor = k + 1 := by
    rw [hsettled] at hone
    exact Nat.exists_eq_add_of_le' (hone.trans (Nat.sub_le _ 1))
  have hholds' : v.Holds c.settled.cursor packet := hsettled ▸ hholds
  have hcopies' := hcopies.step hv hholds hstep
  cases rd' with
  | copy left buf => exact .stay h hsettled.symm ⟨hholds, hpos, hcopies'⟩
  | done lapped buf =>
    cases lapped with
    | true =>
      refine .lapOne hv h hholds' hpos (BlobView.lapped_of_done hstep) ?_ rfl
      simp [Account.lap, BlobConsumer.afterCopy, settled, hpc, hk]
    | false =>
      refine .deliver (x := (packet, some ((List.range (ref packet).len).map buf))) h
        (hv.small _ hholds'.stored) ?_ ?_ rfl
      · rw [hsettled]
        refine ⟨hholds.message, _, hcopies'.payload hv hholds, ?_⟩
        rintro _ ⟨⟩
        rfl
      · simp [Account.deliver, BlobConsumer.afterCopy, settled, hpc, hk]

/-- **A step returns the right message, or counts a lost sequence, or moves nothing.** -/
theorem Inv.advance [Inhabited ω] {a : BlobConsumerLabel w} (hv : v.Truthful acap ref)
    (h : c.Inv cap acap ref v) (hstep : c.step cap acap ref v.memory a = some c') :
    Advances cap acap ref v c c' := by
  have hpc := h.pc
  have hone := h.one_le
  have hlt := h.lt
  unfold PcSound at hpc
  have hplain : (∀ packet rd, c.pc ≠ .copying packet rd) → c.settled = c.toAccount := settled_eq
  cases step_moves hstep with
  | call copy pc => exact .stay h (hplain (by rw [pc]; rintro _ _ ⟨⟩)).symm trivial
  | read copy rd rd' x pc step =>
    have hsettled := hplain (by rw [pc]; rintro _ _ ⟨⟩)
    rw [pc] at hpc
    rw [hsettled] at hone hlt
    exact .stay h hsettled.symm (hpc.step hv hone hlt step)
  | done copy rd r pc step =>
    rw [pc] at hpc
    exact h.afterRead hv (hplain (by rw [pc]; rintro _ _ ⟨⟩)) hpc step
  | lapped copy packet pc lapped =>
    have hsettled := hplain (by rw [pc]; rintro _ _ ⟨⟩)
    rw [pc] at hpc
    exact .lapOne hv h (hsettled ▸ hpc.1) hpc.2 lapped (by rw [hsettled]; rfl) rfl
  | found copy packet pc =>
    rw [pc] at hpc
    exact h.found hv (hplain (by rw [pc]; rintro _ _ ⟨⟩)) hpc.1
  | skip copy seen pc lt =>
    have hsettled := hplain (by rw [pc]; rintro _ _ ⟨⟩)
    rw [pc] at hpc
    rw [hsettled] at hone
    obtain ⟨hsmall, hlost⟩ := hv.skip 1 hone hpc lt
    refine .lap h ?_ hsmall ?_ (by rw [hsettled]; rfl) rfl
    · rw [hsettled]
      exact lt.le
    · rw [hsettled]
      exact hlost
  | giveUp copy seen pc => exact .stay h (hplain (by rw [pc]; rintro _ _ ⟨⟩)).symm trivial
  | copy packet rd rd' x pc step => exact h.afterCopy hv pc step

end BlobConsumer

/-! ## Where the descriptor is -/

section

variable {w : ℕ}

/-- `blob_ref_offset`, for metadata of `metaSize` bytes. -/
def blobRefOffset (metaSize : ℕ) : ℕ := (metaSize + 7) / 8 * 8

/-- The slots of a ring have the size that `__init__` wants for metadata of `metaSize` bytes. -/
abbrev FitsSlots (metaSize w : ℕ) : Prop := w + 8 = slotStride (blobRefOffset metaSize + blobRefLen)

/-- The descriptor as `unpack_from` reads it. -/
def blobRefOf (metaSize : ℕ) (packet : Payload w UInt8) : BlobRef :=
  let b := (payloadBytes packet).drop (blobRefOffset metaSize)
  ⟨ofLe (b.take 8), ofLe ((b.drop 8).take 4), ofLe ((b.drop 12).take 4)⟩

/-- The descriptor as a `BlobConsumer<M>` reads it. -/
def typedRef (l : SlotLayout) (packet : Payload w UInt8) : BlobRef :=
  l.blobRef (toLe 8 0 ++ payloadBytes packet)

/-- Whatever structure is attached with, its descriptor is the end of the packet. -/
theorem blobRefOf_eq {metaSize : ℕ} (h : FitsSlots metaSize w) :
    blobRefOf metaSize = sourceRef (w := w) := by
  have hoffset : blobRefOffset metaSize = w - blobRefLen := by
    unfold FitsSlots slotStride blobRefOffset blobRefLen at *
    omega
  funext packet
  have hlen : (payloadBytes packet).length = w := List.length_ofFn
  rw [blobRefOf, sourceRef, blobRefAt, hoffset, hlen]

/-- The descriptor of an aligned packet is its end. -/
theorem typedRef_eq {cfg : SourceConfig w} {b : PacketConfig} (hcfg : cfg.Aligned)
    (hb : cfg.blob = some b) : typedRef b.layout = sourceRef (w := w) := by
  funext packet
  have hslot : (toLe 8 0 ++ payloadBytes packet).length = b.layout.slotSize := by
    rw [List.length_append, length_toLe, payloadBytes, List.length_ofFn, ← cfg.width b hb,
      Nat.add_comm]
  have hend : b.layout.slotSize = b.layout.refEnd :=
    (SlotLayout.refEnd_eq (hcfg.size b hb) (hcfg.align b hb)).symm
  rw [typedRef, sourceRef, ← SlotLayout.blobRefAt_drop hend hslot,
    List.drop_left' (length_toLe 8 0)]

/-! ## Readers beside a blob channel -/

/-- A reader in either language; one in Python was given a structure of `metaSize` bytes. -/
inductive AnyBlobReader (w : ℕ) where
  | absent
  | rust (c : BlobReceiver w UInt8)
  | python (metaSize : ℕ) (c : BlobConsumer w UInt8)

/-- The packets that a reader has returned, with their sequences and payloads; a view from Python
comes without. -/
def AnyBlobReader.results : AnyBlobReader w → List (ℕ × Payload w UInt8 × Option (List UInt8))
  | .absent => []
  | .rust c => c.delivered.map fun x => (x.1, x.2.1, some x.2.2)
  | .python _ c => c.delivered

/-- What a reader does. -/
inductive AnyBlobLabel (w : ℕ) where
  | attachRust
  | attachPython (metaSize : ℕ)
  | rust (a : ReceiverLabel w)
  | python (a : BlobConsumerLabel w)

variable {ρ κ : Type} {cfg : SourceConfig w} {b : PacketConfig}

/-- One memory access of a reader. -/
def blobLook (cap : Capacity) (b : PacketConfig) (s : Source ρ w) :
    AnyBlobReader w → AnyBlobLabel w → Option (AnyBlobReader w)
  | .absent, .attachRust =>
    some (.rust (.attach false (oldestRetained s.sys.mem.writeSeq cap.val) 0))
  | .absent, .attachPython metaSize =>
    if FitsSlots metaSize w then some (.python metaSize (.attach cap s.sys.mem.writeSeq)) else none
  | .rust c, .rust a => (c.step cap b.arena (typedRef b.layout) s.blobView.memory a).map .rust
  | .python metaSize c, .python a =>
    (c.step cap b.arena (blobRefOf metaSize) s.blobView.memory a).map (.python metaSize)
  | _, _ => none

/-- What holds of a reader. -/
def AnyBlobReader.Inv (cap : Capacity) (acap : ArenaCapacity) (v : BlobView w UInt8) :
    AnyBlobReader w → Prop
  | .absent => True
  | .rust c => c.Inv cap acap sourceRef v
  | .python metaSize c => FitsSlots metaSize w ∧ c.Inv cap acap sourceRef v

theorem AnyBlobReader.Inv.right {cap : Capacity} {acap : ArenaCapacity} {v : BlobView w UInt8}
    {x : AnyBlobReader w} (h : x.Inv cap acap v) {n : ℕ}
    {y : Payload w UInt8 × Option (List UInt8)} (hy : (n, y) ∈ x.results) :
    BlobConsumer.Right v n y := by
  cases x with
  | absent => cases hy
  | rust c =>
    obtain ⟨⟨m, packet, bytes⟩, hmem, heq⟩ := List.mem_map.mp hy
    cases heq
    obtain ⟨hmessage, hbytes⟩ := BlobReceiver.Inv.delivered h _ _ hmem
    refine ⟨hmessage, bytes, hbytes, ?_⟩
    rintro _ ⟨⟩
    rfl
  | python metaSize c => exact h.2.delivered n y hy

/-- A blob channel nobody has attached to, with its readers. -/
def blobBeside (ρ κ : Type) (cfg : SourceConfig w) : Observed κ (Source ρ w) (AnyBlobReader w) :=
  ⟨.create ρ cfg, fun _ => .absent⟩

/-- What one access of a reader does: it keeps its knowledge, and its books. -/
theorem blobLook_rust (hcfg : cfg.Aligned) (hb : cfg.blob = some b) {s : Source ρ w}
    (hv : s.blobView.Truthful b.arena sourceRef) {c : BlobReceiver w UInt8} {a : AnyBlobLabel w}
    {x : AnyBlobReader w} (hc : c.Inv cfg.ring.cap b.arena sourceRef s.blobView)
    (hlook : blobLook cfg.ring.cap b s (.rust c) a = some x) : ∃ c', x = .rust c' ∧
      BlobReceiver.Advances cfg.ring.cap b.arena sourceRef s.blobView c c' := by
  cases a with
  | rust a =>
    obtain ⟨c', hc', rfl⟩ := Option.map_eq_some_iff.mp hlook
    rw [typedRef_eq hcfg hb] at hc'
    exact ⟨c', rfl, hc.advance hv hc'⟩
  | attachRust | attachPython | python => cases hlook

@[inherit_doc blobLook_rust]
theorem blobLook_python {cap : Capacity} {s : Source ρ w}
    (hv : s.blobView.Truthful b.arena sourceRef) {metaSize : ℕ} {c : BlobConsumer w UInt8}
    {a : AnyBlobLabel w} {x : AnyBlobReader w} (hfits : FitsSlots metaSize w)
    (hc : c.Inv cap b.arena sourceRef s.blobView)
    (hlook : blobLook cap b s (.python metaSize c) a = some x) : ∃ c', x = .python metaSize c' ∧
      BlobConsumer.Advances cap b.arena sourceRef s.blobView c c' := by
  cases a with
  | python a =>
    obtain ⟨c', hc', rfl⟩ := Option.map_eq_some_iff.mp hlook
    rw [blobRefOf_eq hfits] at hc'
    exact ⟨c', rfl, hc.advance hv hc'⟩
  | attachRust | attachPython | rust => cases hlook

variable [DecidableEq ρ]

/-- The invariant of one reader, as the observer rule asks for it. -/
theorem kept_blobReader (hcfg : cfg.Aligned) (hb : cfg.blob = some b) :
    Observed.Kept (Source.Inv cfg) (Source.step (ρ := ρ) cfg) (blobLook cfg.ring.cap b)
      (fun _ => True) fun s x => x.Inv cfg.ring.cap b.arena s.blobView where
  base := by
    intro s s' l x hI hJ hstep
    have he := hI.evolves hstep
    cases x with
    | absent => trivial
    | rust c => exact BlobReceiver.Inv.evolves hJ he
    | python metaSize c => exact ⟨hJ.1, hJ.2.evolves he⟩
  look := by
    intro s a x x' _ hI hJ hlook
    have hv := hI.truthful hb
    cases x with
    | absent =>
      cases a with
      | attachRust =>
        cases hlook
        exact BlobReceiver.Inv.attach hv
      | attachPython metaSize =>
        simp only [blobLook] at hlook
        split_ifs at hlook with hfits
        cases hlook
        exact ⟨hfits, .attach hv⟩
      | rust | python => cases hlook
    | rust c =>
      obtain ⟨c', rfl, hadv⟩ := blobLook_rust hcfg hb hv hJ hlook
      exact hadv.inv
    | python metaSize c =>
      obtain ⟨c', rfl, hadv⟩ := blobLook_python hv hJ.1 hJ.2 hlook
      exact ⟨hJ.1, hadv.inv⟩

/-- **The invariant holds of every reader in every reachable state.** -/
theorem blobReader_inv [DecidableEq κ] (hcfg : cfg.Aligned) (hb : cfg.blob = some b)
    {s : Observed κ (Source ρ w) (AnyBlobReader w)}
    (hreach : Reaches (Observed.step (Source.step cfg) (blobLook cfg.ring.cap b))
      (blobBeside ρ κ cfg) s) :
    s.base.Inv cfg ∧ ∀ k, (s.observer k).Inv cfg.ring.cap b.arena s.base.blobView := by
  have hinit (k : κ) : ((blobBeside ρ κ cfg).observer k).Inv cfg.ring.cap b.arena
      (blobBeside ρ κ cfg).base.blobView := trivial
  exact (kept_blobReader hcfg hb).invariant
    (fun h hstep => h.step hcfg (Source.step_move hstep)) (.create ρ cfg) hinit hreach

/-- The books of one reader since it was `c`, as the observer rule asks for them. -/
theorem kept_rustBooks (hcfg : cfg.Aligned) (hb : cfg.blob = some b) (c : BlobReceiver w UInt8) :
    Observed.Kept (Source.Inv cfg) (Source.step (ρ := ρ) cfg) (blobLook cfg.ring.cap b)
      (fun _ => True) fun s x => ∃ c', x = .rust c' ∧
        c'.Inv cfg.ring.cap b.arena sourceRef s.blobView ∧
        s.blobView.Books cfg.ring.cap b.arena sourceRef 0 c.toAccount c'.toAccount where
  base := by
    rintro s s' l x hI ⟨c', rfl, hinv, hbooks⟩ hstep
    have he := hI.evolves hstep
    exact ⟨c', rfl, hinv.evolves he, hbooks.evolves he⟩
  look := by
    rintro s a x x' - hI ⟨c', rfl, hinv, hbooks⟩ hlook
    obtain ⟨c'', rfl, hadv⟩ := blobLook_rust hcfg hb (hI.truthful hb) hinv hlook
    exact ⟨c'', rfl, hadv.inv, hbooks.trans hadv.books⟩

@[inherit_doc kept_rustBooks]
theorem kept_pythonBooks (hb : cfg.blob = some b) (metaSize : ℕ)
    (c : BlobConsumer w UInt8) (hfits : FitsSlots metaSize w) :
    Observed.Kept (Source.Inv cfg) (Source.step (ρ := ρ) cfg) (blobLook cfg.ring.cap b)
      (fun _ => True) fun s x => ∃ c', x = .python metaSize c' ∧
        c'.Inv cfg.ring.cap b.arena sourceRef s.blobView ∧
        s.blobView.Books cfg.ring.cap b.arena sourceRef 1 c.settled c'.settled where
  base := by
    rintro s s' l x hI ⟨c', rfl, hinv, hbooks⟩ hstep
    have he := hI.evolves hstep
    exact ⟨c', rfl, hinv.evolves he, hbooks.evolves he⟩
  look := by
    rintro s a x x' - hI ⟨c', rfl, hinv, hbooks⟩ hlook
    obtain ⟨c'', rfl, hadv⟩ := blobLook_python (hI.truthful hb) hfits hinv hlook
    exact ⟨c'', rfl, hadv.inv, hbooks.trans hadv.books⟩

/-- What passed between the books `a` and `a'`: the results `D` were returned with their
sequences, and the sequences `L` were lost. -/
structure BlobPassed {τ : Type} (cap : Capacity) (acap : ArenaCapacity) (low : ℕ)
    (v : BlobView w UInt8) (a a' : Account τ) (D : List (ℕ × τ)) (L : List ℕ) : Prop where
  delivered : a'.delivered = a.delivered ++ D
  lappedCount : a'.lappedTotal = a.lappedTotal + L.length
  cursor : a'.cursor = a.cursor + (D.length + L.length)
  increasing : (D.map Prod.fst).Pairwise (· < ·)
  once : ∀ n, a.cursor ≤ n → n < a'.cursor → (D.map Prod.fst).count n + L.count n = 1
  lost : ∀ n ∈ L, v.Lost cap acap sourceRef low n

omit [DecidableEq ρ] in
theorem blobPassed_of_books {τ : Type} {cap : Capacity} {acap : ArenaCapacity} {low : ℕ}
    {v : BlobView w UInt8} {a a' : Account τ} (h : v.Books cap acap sourceRef low a a') :
    ∃ D L, BlobPassed cap acap low v a a' D L := by
  obtain ⟨D, L, hadv, hL⟩ := h
  refine ⟨D, L, hadv.delivered, hadv.lappedTotal, hadv.cursor_eq, hadv.increasing,
    fun n hn hn' => ?_, hL⟩
  have hone := hadv.count_eq_one hn hn'
  rwa [List.count_nil, Nat.add_zero] at hone

/-! ## Two runs -/

/-- Packets without metadata over an arena of one cache line. -/
def barePackets : SourceConfig 16 where
  ring := ⟨⟨2, isPowerOfTwo_two⟩, 0, .lossyLatestWins⟩
  blob := some ⟨.oneLine, ⟨0, 1⟩⟩
  width := by rintro _ ⟨⟩; rfl
  lossy := by rintro _ _; rfl

theorem barePackets_aligned : barePackets.Aligned :=
  ⟨by rintro _ ⟨⟩; exact one_dvd _, by rintro _ ⟨⟩; exact .inl rfl⟩

/-- What the runs below consist of. -/
abbrev BareLabel : Type := ObservedLabel (Fin 3) (SourceLabel Unit 16) (AnyBlobLabel 16)

/-- Where the runs below lead. -/
abbrev BareState : Type := Observed (Fin 3) (Source Unit 16) (AnyBlobReader 16)

/-- Three readers attach, the first in Rust. -/
def bareAttach : List BareLabel :=
  [.observer 0 .attachRust, .observer 1 (.attachPython 0), .observer 2 (.attachPython 0)]

/-- A payload of one byte is pushed. -/
def barePush (x : UInt8) : List BareLabel :=
  [.base (.push ⟨[], [], [x]⟩), .base (.writer .tick), .base (.writer .tick),
    .base (.writer (.byte 0)), .base (.writer .tick), .base .publishPacket,
    .base (.ring (.producer .tick)), .base (.ring (.producer .tick))] ++
  (List.finRange 16).map (fun i => .base (.ring (.producer (.word i)))) ++
  [.base (.ring (.producer .tick)), .base (.ring (.producer .tick)),
    .base (.ring (.producer .tick))]

/-- A slot is read. -/
def bareSlotRust : List BareLabel :=
  .observer 0 (.rust .tick) :: (List.finRange 16).map (fun i => .observer 0 (.rust (.word i))) ++
    [.observer 0 (.rust .tick)]

@[inherit_doc bareSlotRust]
def bareSlotPython (k : Fin 3) : List BareLabel :=
  .observer k (.python .tick) ::
    (List.finRange 16).map (fun i => .observer k (.python (.word i))) ++
    [.observer k (.python .tick)]

/-- A payload is pushed, and each reader receives it, the last one as a view. -/
def bareReceive : List BareLabel :=
  bareAttach ++ barePush 5 ++ [.observer 0 (.rust (.call none))] ++ bareSlotRust ++
    [.observer 0 (.rust .tick), .observer 0 (.rust (.byte 0)), .observer 0 (.rust .tick),
      .observer 1 (.python (.call true))] ++ bareSlotPython 1 ++
    [.observer 1 (.python .tick), .observer 1 (.python (.byte 0)), .observer 1 (.python .tick),
      .observer 2 (.python (.call false))] ++ bareSlotPython 2 ++ [.observer 2 (.python .tick)]

/-- Two payloads are pushed, and the first two readers come too late for the first of them. -/
def bareLate : List BareLabel :=
  barePush 5 ++ barePush 6 ++ [.observer 0 (.rust (.call none))] ++ bareSlotRust ++
    [.observer 0 (.rust .tick)] ++ bareSlotRust ++
    [.observer 0 (.rust .tick), .observer 0 (.rust (.byte 0)), .observer 0 (.rust .tick),
      .observer 1 (.python (.call true))] ++ bareSlotPython 1 ++ [.observer 1 (.python .tick)] ++
    bareSlotPython 1 ++
    [.observer 1 (.python .tick), .observer 1 (.python (.byte 0)), .observer 1 (.python .tick)]

/-- A run from the start. -/
def bareResult (as : List BareLabel) : Option (BareState) :=
  run (Observed.step (Source.step barePackets) (blobLook barePackets.ring.cap ⟨.oneLine, ⟨0, 1⟩⟩))
    (blobBeside Unit (Fin 3) barePackets) as

/-- What reader `k` has returned, without the packets. -/
def payloads (s : BareState) (k : Fin 3) :
    List (ℕ × Option (List UInt8)) :=
  (s.observer k).results.map fun x => (x.1, x.2.2)

/-- Reader `k` is in Python and in no call. -/
def restsInPython (s : BareState) (k : Fin 3) : Bool :=
  match s.observer k with
  | .python _ ⟨_, .idle⟩ => true
  | _ => false

theorem idle_of_restsInPython {s : BareState} {k : Fin 3} (h : restsInPython s k = true) {t : ℕ}
    {c : BlobConsumer 16 UInt8} (hc : s.observer k = .python t c) : c.pc = .idle := by
  rw [restsInPython, hc] at h
  split at h
  · next heq =>
    cases heq
    rfl
  · cases h

theorem bareReceive_result : (bareResult bareReceive).map
    (fun s => [payloads s 0, payloads s 1, payloads s 2]) =
      some [[(1, some [5])], [(1, some [5])], [(1, none)]] := by
  decide +kernel

theorem bareLate_result : (bareResult (bareAttach ++ bareLate)).map
    (fun s => [payloads s 0, payloads s 1]) = some [[(2, some [6])], [(2, some [6])]] := by
  decide +kernel

theorem bareLate_rests : (bareResult (bareAttach ++ bareLate)).map (restsInPython · 1) =
    some true := by
  decide +kernel

/-! ## What readers receive -/

/-- **A reader of a blob channel returns what was pushed.** In every interleaving of a blob
producer whose metadata is aligned to at most 16 bytes, the local readers of its ring and any number
of blob consumers in either language: a packet returned under sequence `n` is the `n`-th pushed, and
a payload returned with it is the one pushed with it. A view from Python shows that payload for as
long as the arena has not gone round. -/
theorem blob_recv_intact [DecidableEq κ] (hcfg : cfg.Aligned) (hb : cfg.blob = some b)
    {s : Observed κ (Source ρ w) (AnyBlobReader w)}
    (hreach : Reaches (Observed.step (Source.step cfg) (blobLook cfg.ring.cap b))
      (blobBeside ρ κ cfg) s) {k : κ} {n : ℕ} {packet : Payload w UInt8} :
    (∀ bytes, (n, packet, some bytes) ∈ (s.observer k).results →
      s.base.message n = some packet ∧ s.base.blobs[n - 1]? = some bytes) ∧
    ((n, packet, none) ∈ (s.observer k).results → s.base.message n = some packet ∧
      ∃ bytes, s.base.blobs[n - 1]? = some bytes ∧
        (isLapped b.arena s.base.arena.reserved (sourceRef packet) = false →
          s.base.arena.viewBlob b.arena (sourceRef packet) = bytes)) := by
  obtain ⟨hbase, hinv⟩ := blobReader_inv hcfg hb hreach
  constructor
  · intro bytes hmem
    obtain ⟨hmessage, bytes', hbytes, hcopied⟩ := (hinv k).right hmem
    exact ⟨hmessage, (hcopied bytes rfl) ▸ hbytes⟩
  · intro hmem
    obtain ⟨hmessage, bytes, hbytes, -⟩ := (hinv k).right hmem
    refine ⟨hmessage, bytes, hbytes, fun hlap => ?_⟩
    have hblob := hbase.blob b hb
    exact hblob.writer.viewBlob (hblob.packet n packet bytes hmessage hbytes).1 hlap

/-- One payload, received by a Rust and a Python consumer and viewed by another. -/
theorem blob_recv_intact_three :
    ∃ s : BareState, payloads s 0 = [(1, some [5])] ∧ payloads s 1 = [(1, some [5])] ∧
      s.base.blobs[1 - 1]? = some [5] ∧
      ∃ packet, (1, packet, none) ∈ (s.observer 2).results ∧ s.base.message 1 = some packet := by
  obtain ⟨s, hs, hresults⟩ := Option.map_eq_some_iff.mp bareReceive_result
  simp only [List.cons.injEq, and_true] at hresults
  obtain ⟨hzero, hone, htwo⟩ := hresults
  have hpacket {k : Fin 3} {x : ℕ × Option (List UInt8)} (h : payloads s k = [x]) :
      ∃ packet, (x.1, packet, x.2) ∈ (s.observer k).results := by
    have hx : x ∈ payloads s k := h ▸ List.mem_singleton_self x
    obtain ⟨⟨n, packet, bytes⟩, hmem, rfl⟩ := List.mem_map.mp hx
    exact ⟨packet, hmem⟩
  obtain ⟨packet, hmem⟩ := hpacket hone
  obtain ⟨packet', hmem'⟩ := hpacket htwo
  have hreach : Reaches (Observed.step (Source.step barePackets)
      (blobLook barePackets.ring.cap ⟨.oneLine, ⟨0, 1⟩⟩)) (blobBeside Unit (Fin 3) barePackets) s :=
    ⟨_, hs⟩
  exact ⟨s, hzero, hone, ((blob_recv_intact barePackets_aligned rfl hreach).1 _ hmem).2, packet',
    hmem', ((blob_recv_intact barePackets_aligned rfl hreach).2 hmem').1⟩

/-- **A reader of a blob channel counts every loss.** In every such interleaving, every sequence
that a cursor passes is returned once or counted once as lapped, and what is counted was overwritten
in the ring or in the arena; in Python never an empty payload for the arena's sake. -/
theorem blob_recv_accounted [DecidableEq κ] (hcfg : cfg.Aligned) (hb : cfg.blob = some b)
    {s s' : Observed κ (Source ρ w) (AnyBlobReader w)}
    {as : List (ObservedLabel κ (SourceLabel ρ w) (AnyBlobLabel w))}
    (hreach : Reaches (Observed.step (Source.step cfg) (blobLook cfg.ring.cap b))
      (blobBeside ρ κ cfg) s)
    (hrun : run (Observed.step (Source.step cfg) (blobLook cfg.ring.cap b)) s as = some s')
    {k : κ} :
    (∀ c, s.observer k = .rust c → ∃ c', s'.observer k = .rust c' ∧
      ∃ D L, BlobPassed cfg.ring.cap b.arena 0 s'.base.blobView c.toAccount c'.toAccount D L) ∧
    ∀ metaSize c, s.observer k = .python metaSize c → c.pc = .idle →
      ∃ c', s'.observer k = .python metaSize c' ∧ (c'.pc = .idle →
        ∃ D L,
          BlobPassed cfg.ring.cap b.arena 1 s'.base.blobView c.toAccount c'.toAccount D L) := by
  obtain ⟨hbase, hinv⟩ := blobReader_inv hcfg hb hreach
  have hk := hinv k
  have hstep {t t' : Source ρ w} {l : SourceLabel ρ w} (h : t.Inv cfg)
      (hl : t.step cfg l = some t') : t'.Inv cfg := h.step hcfg (Source.step_move hl)
  have hidle {c : BlobConsumer w UInt8} (h : c.pc = .idle) : c.settled = c.toAccount :=
    BlobConsumer.settled_eq (by rw [h]; rintro _ _ ⟨⟩)
  constructor
  · intro c hc
    rw [hc] at hk
    obtain ⟨-, c', hc', -, hbooks⟩ := (kept_rustBooks hcfg hb c).since hstep
      (fun _ _ _ _ => trivial) hbase ⟨c, hc, hk, .refl _ _⟩ hrun
    exact ⟨c', hc', blobPassed_of_books hbooks⟩
  · intro metaSize c hc hpc
    rw [hc] at hk
    obtain ⟨-, c', hc', -, hbooks⟩ := (kept_pythonBooks hb metaSize c hk.1).since hstep
      (fun _ _ _ _ => trivial) hbase ⟨c, hc, hk.2, .refl _ _⟩ hrun
    refine ⟨c', hc', fun hpc' => ?_⟩
    rw [hidle hpc, hidle hpc'] at hbooks
    exact blobPassed_of_books hbooks

/-- Two payloads of which the second takes the place of the first in the arena: a reader in Rust and
one in Python count the first as lapped. -/
theorem blob_recv_accounted_late :
    ∃ s' : BareState, payloads s' 0 = [(2, some [6])] ∧ payloads s' 1 = [(2, some [6])] ∧
      (∃ (c c' : BlobReceiver 16 UInt8) (D : List (ℕ × Payload 16 UInt8 × List UInt8))
        (L : List ℕ), s'.observer 0 = .rust c' ∧ c.cursor = 1 ∧
        BlobPassed barePackets.ring.cap .oneLine 0 s'.base.blobView c.toAccount
          c'.toAccount D L) ∧
      ∃ (c c' : BlobConsumer 16 UInt8) (D : List (ℕ × Payload 16 UInt8 × Option (List UInt8)))
        (L : List ℕ), s'.observer 1 = .python 0 c' ∧ c.cursor = 1 ∧
        BlobPassed barePackets.ring.cap .oneLine 1 s'.base.blobView c.toAccount
          c'.toAccount D L := by
  obtain ⟨s', hs', hresults⟩ := Option.map_eq_some_iff.mp bareLate_result
  simp only [List.cons.injEq, and_true] at hresults
  obtain ⟨hzero, hone⟩ := hresults
  have hrests : restsInPython s' 1 = true := by
    have hmap := bareLate_rests
    rw [hs', Option.map_some, Option.some.injEq] at hmap
    exact hmap
  obtain ⟨s, hs, hrun⟩ := run_append.mp hs'
  obtain ⟨⟨c, hc, hcursor⟩, p, hp, hpcursor, hidle⟩ :
      (∃ c, s.observer 0 = .rust c ∧ c.cursor = 1) ∧
      ∃ p, s.observer 1 = .python 0 p ∧ p.cursor = 1 ∧ p.pc = .idle := by
    cases hs
    exact ⟨⟨_, rfl, rfl⟩, _, rfl, rfl, rfl⟩
  obtain ⟨c', hc', D, L, hpassed⟩ :=
    (blob_recv_accounted barePackets_aligned rfl ⟨_, hs⟩ hrun).1 c hc
  obtain ⟨p', hp', hbooks⟩ :=
    (blob_recv_accounted barePackets_aligned rfl ⟨_, hs⟩ hrun).2 0 p hp hidle
  obtain ⟨E, M, hpassed'⟩ := hbooks (idle_of_restsInPython hrests hp')
  exact ⟨s', hzero, hone, ⟨c, c', D, L, hc', hcursor, hpassed⟩, p, p', E, M, hp', hpcursor,
    hpassed'⟩

end

end Python

end Ringfire
