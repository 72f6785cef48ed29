import Ringfire.Blob.Receiver
import Ringfire.Replication.Source

/-!
# Readers of a blob channel under way

What a reader of a blob channel may rely on while the producer goes on: what it may rely on in every
ring, and that the descriptor of every packet names the payload that was pushed with it, whose bytes
are in the arena until the counter has gone round. `BlobView` is the memory together with what was
pushed so far.

The checks of `next_blob` come in between: the slot is read, the counter is loaded, the bytes are
copied, the counter is loaded again. A producer may take any number of steps between any two of
these. `BlobReceiver.Inv` is what the consumer knows all the same.

## Main definitions

* `BlobView.Truthful`, `BlobView.Evolves`: the two halves of the contract
* `BlobView.Lost`: a sequence that may be counted as lapped
* `BlobView.Books`: nothing else was counted
* `BlobReceiver.Moves`: the steps of a consumer, one constructor for each access and outcome

## Main results

* `Source.Inv.truthful`, `Source.Inv.evolves`: a blob channel keeps the contract
* `BlobReceiver.Inv.advance`: a step returns the right message or counts a lost sequence
-/

namespace Ringfire

open PayloadArena

variable {w : ℕ} {ω : Type}

/-! ## The contract -/

/-- The memory that readers of a blob channel see, and what was pushed so far. -/
structure BlobView (w : ℕ) (ω : Type) where
  ring : View w ω
  arena : ArenaMem UInt8
  payload : ℕ → Option (List UInt8)

/-- What the readers of a blob channel look at. -/
def BlobView.memory (v : BlobView w ω) : BlobMemory w ω := ⟨v.ring.slots, v.ring.writeSeq, v.arena⟩

/-- `r` names `bytes`, which are in the arena until the counter has gone round. -/
structure ArenaMem.Keeps (acap : ArenaCapacity) (m : ArenaMem UInt8) (r : BlobRef)
    (bytes : List UInt8) : Prop where
  len : r.len = bytes.length
  inBounds : isInBounds acap r = true
  stored : isLapped acap m.reserved r = false → Stored acap m r bytes ∅

namespace BlobView

/-- The ring is truthful, its sequences stay below the mark, and the descriptor of every packet
names its payload. -/
structure Truthful (acap : ArenaCapacity) (ref : Payload w ω → BlobRef) (v : BlobView w ω) :
    Prop where
  ring : v.ring.Truthful
  small : ∀ k, v.ring.stored k → k + 1 < slotWriting
  keeps : ∀ k packet, v.ring.message k = some packet →
    ∃ bytes, v.payload k = some bytes ∧ v.arena.Keeps acap (ref packet) bytes

/-- What the steps of the producer may do. -/
structure Evolves (v v' : BlobView w ω) : Prop where
  ring : v.ring.Evolves v'.ring
  reserved : v.arena.reserved ≤ v'.arena.reserved
  payload : ∀ k bytes, v.payload k = some bytes → v'.payload k = some bytes

/-- Sequence `n` need not be returned any more: a full ring of messages was stored behind it, or
the arena has gone round since. A reader may leave alone payloads shorter than `low`. -/
inductive Lost (cap : Capacity) (acap : ArenaCapacity) (ref : Payload w ω → BlobRef) (low : ℕ)
    (v : BlobView w ω) (n : ℕ) : Prop where
  | overwritten (k : ℕ) (le : n + cap.val ≤ k) (stored : v.ring.stored k)
  | lapped (packet : Payload w ω) (message : v.ring.message n = some packet)
      (le : low ≤ (ref packet).len) (lapped : isLapped acap v.arena.reserved (ref packet) = true)

variable {cap : Capacity} {acap : ArenaCapacity} {ref : Payload w ω → BlobRef} {low : ℕ}
  {v v' : BlobView w ω} {n : ℕ}

theorem Lost.evolves (h : v.Lost cap acap ref low n) (he : v.Evolves v') :
    v'.Lost cap acap ref low n := by
  cases h with
  | overwritten k le stored => exact .overwritten k le (he.ring.stored k stored)
  | lapped packet message le lapped =>
    refine .lapped packet (he.ring.message n packet message) le ?_
    by_contra hne
    rw [Bool.not_eq_true] at hne
    rw [isLapped_mono he.reserved hne] at lapped
    cases lapped

/-- What is retained is below the mark. -/
theorem Truthful.oldest_lt (hv : v.Truthful acap ref) (h : n = 0 ∨ v.ring.stored n) :
    oldestRetained n cap.val < slotWriting := by
  have hcap := cap.pos
  have hsmall : n + 1 < slotWriting := by
    rcases h with rfl | hstored
    · decide
    · exact hv.small n hstored
  unfold oldestRetained
  split_ifs <;> omega

/-- A reader that skips to what is retained passes lost sequences only, and stays below the mark. -/
theorem Truthful.skip (hv : v.Truthful acap ref) (low : ℕ) {cursor seen : ℕ} (hpos : 1 ≤ cursor)
    (hseen : seen = 0 ∨ v.ring.stored seen)
    (hlt : cursor < oldestRetained (max v.ring.writeSeq seen) cap.val) :
    oldestRetained (max v.ring.writeSeq seen) cap.val < slotWriting ∧
      ∀ n, cursor ≤ n → n < oldestRetained (max v.ring.writeSeq seen) cap.val →
        v.Lost cap acap ref low n := by
  have hmax : max v.ring.writeSeq seen = 0 ∨ v.ring.stored (max v.ring.writeSeq seen) := by
    rcases max_choice v.ring.writeSeq seen with hmax | hmax
    · rw [hmax]
      exact hv.ring.writeSeq
    · rw [hmax]
      exact hseen
  have hcap := cap.pos
  have hle := (lt_oldestRetained hpos).mp hlt
  exact ⟨hv.oldest_lt hmax, fun n hn hn' =>
    .overwritten _ ((lt_oldestRetained (hpos.trans hn)).mp hn') (hmax.resolve_left (by omega))⟩

/-- The slot that shows the sequence looked for has the message pushed under it. -/
theorem Truthful.slot (hv : v.Truthful acap ref) {i want : ℕ} (hpos : 1 ≤ want)
    (hlt : want < slotWriting) (heq : (v.ring.slots i).seq = want) : v.ring.stored want := by
  subst heq
  exact (hv.ring.word_stored hlt.ne).resolve_left (by omega)

/-- From `a` to `a'` messages were returned and lost sequences counted as lapped. -/
def Books {τ : Type} (cap : Capacity) (acap : ArenaCapacity) (ref : Payload w ω → BlobRef)
    (low : ℕ) (v : BlobView w ω) (a a' : Account τ) : Prop :=
  ∃ D L, a.Advance a' D L [] ∧ ∀ n ∈ L, v.Lost cap acap ref low n

section

variable {τ : Type} {a a' a'' : Account τ}

theorem Books.refl (v : BlobView w ω) (a : Account τ) : v.Books cap acap ref low a a :=
  ⟨[], [], .refl a, by rintro n ⟨⟩⟩

theorem Books.evolves (h : v.Books cap acap ref low a a') (he : v.Evolves v') :
    v'.Books cap acap ref low a a' := by
  obtain ⟨D, L, hadv, hL⟩ := h
  exact ⟨D, L, hadv, fun n hn => (hL n hn).evolves he⟩

theorem Books.trans (h : v.Books cap acap ref low a a') (h' : v.Books cap acap ref low a' a'') :
    v.Books cap acap ref low a a'' := by
  obtain ⟨D, L, hadv, hL⟩ := h
  obtain ⟨D', L', hadv', hL'⟩ := h'
  exact ⟨D ++ D', L ++ L', hadv.trans hadv',
    fun n hn => (List.mem_append.mp hn).elim (hL n) (hL' n)⟩

theorem Books.deliver (v : BlobView w ω) (a : Account τ) (x : τ) :
    v.Books cap acap ref low a (a.deliver x) :=
  ⟨_, _, .deliver a x, by rintro n ⟨⟩⟩

theorem Books.lap {target : ℕ} (hle : a.cursor ≤ target)
    (hlost : ∀ n, a.cursor ≤ n → n < target → v.Lost cap acap ref low n) :
    v.Books cap acap ref low a (a.lap target) := by
  refine ⟨[], _, .lap a hle, fun n hn => ?_⟩
  rw [List.mem_range'_1] at hn
  exact hlost n hn.1 (by omega)

end

/-! ## What a reader knows -/

/-- What is known of the packet under the cursor once it was read. -/
structure Holds (v : BlobView w ω) (cursor : ℕ) (packet : Payload w ω) : Prop where
  stored : v.ring.stored cursor
  message : v.ring.message cursor = some packet

/-- What a copy of the payload under the cursor is worth. -/
def Copies (acap : ArenaCapacity) (ref : Payload w ω → BlobRef) (v : BlobView w ω) (cursor : ℕ)
    (packet : Payload w ω) (rd : BlobReadPc UInt8) : Prop :=
  ∃ bytes, v.payload cursor = some bytes ∧ rd.Sound acap v.arena (ref packet) bytes

/-- What the accesses of `read_slot` to the slot under the cursor are worth. -/
def Reads (cap : Capacity) (v : BlobView w ω) (cursor : ℕ) (rd : ReadPc w ω) : Prop :=
  rd.Sound v.ring.message (v.ring.top (slotIndex cap cursor)) (v.ring.slots (slotIndex cap cursor))
    cursor

variable {cursor : ℕ} {packet : Payload w ω}

theorem Holds.evolves (h : v.Holds cursor packet) (he : v.Evolves v') : v'.Holds cursor packet :=
  ⟨he.ring.stored _ h.stored, he.ring.message _ _ h.message⟩

theorem Copies.evolves {rd : BlobReadPc UInt8} (h : v.Copies acap ref cursor packet rd)
    (he : v.Evolves v') : v'.Copies acap ref cursor packet rd := by
  obtain ⟨bytes, hbytes, hsound⟩ := h
  exact ⟨bytes, he.payload _ _ hbytes, hsound.mono he.reserved⟩

theorem Reads.evolves {rd : ReadPc w ω} (h : v.Reads cap cursor rd) (hlt : cursor < slotWriting)
    (he : v.Evolves v') : v'.Reads cap cursor rd :=
  ReadPc.Sound.evolves h hlt.ne (he.ring.top _) (he.ring.message _) (he.ring.slots _)

/-- The accesses of `read_slot` are right about the message under the cursor. -/
theorem Reads.step [Inhabited ω] {rd rd' : ReadPc w ω} {x : Option (Fin w)}
    (hv : v.Truthful acap ref) (hpos : 1 ≤ cursor) (hlt : cursor < slotWriting)
    (h : v.Reads cap cursor rd)
    (hstep : rd.step (v.ring.slots (slotIndex cap cursor)) cursor x = some rd') :
    v.Reads cap cursor rd' :=
  ReadPc.Sound.step h (fun heq => hv.ring.slot hpos hlt.ne heq) hstep

/-- A packet read is the one pushed under the cursor. -/
theorem Reads.holds [Inhabited ω] {rd : ReadPc w ω} (hv : v.Truthful acap ref) (hpos : 1 ≤ cursor)
    (hlt : cursor < slotWriting) (h : v.Reads cap cursor rd)
    (hstep : rd.step (v.ring.slots (slotIndex cap cursor)) cursor none =
      some (.done (.item packet))) : v.Holds cursor packet :=
  ⟨hv.slot hpos hlt (ReadPc.step_item hstep), h.step hv hpos hlt hstep packet rfl⟩

/-- A sequence found in place of the one under the cursor was stored. -/
theorem Truthful.overwritten [Inhabited ω] {rd : ReadPc w ω} {seen : ℕ} (hv : v.Truthful acap ref)
    (hstep : rd.step (v.ring.slots (slotIndex cap cursor)) cursor none =
      some (.done (.overwritten seen))) : seen = 0 ∨ v.ring.stored seen := by
  rcases ReadPc.step_overwritten hstep with h0 | ⟨rfl, hm⟩
  · exact .inl h0
  · exact hv.ring.word_stored hm

/-- The payload of a packet that was read, and where it is. -/
theorem Holds.keeps (hv : v.Truthful acap ref) (h : v.Holds cursor packet) :
    ∃ bytes, v.payload cursor = some bytes ∧ v.arena.Keeps acap (ref packet) bytes :=
  hv.keeps _ _ h.message

/-- Nothing is copied at first. -/
theorem Holds.start (hv : v.Truthful acap ref) (h : v.Holds cursor packet) :
    v.Copies acap ref cursor packet (.start (ref packet)) := by
  obtain ⟨bytes, hbytes, hkeeps⟩ := h.keeps hv
  exact ⟨bytes, hbytes, .start _ hkeeps.len⟩

/-- An access of the copy. -/
theorem Copies.step {rd rd' : BlobReadPc UInt8} {x : Option ℕ} (hv : v.Truthful acap ref)
    (hholds : v.Holds cursor packet) (h : v.Copies acap ref cursor packet rd)
    (hstep : rd.step acap v.arena (ref packet) x = some rd') :
    v.Copies acap ref cursor packet rd' := by
  obtain ⟨bytes, hbytes, hkeeps⟩ := hholds.keeps hv
  obtain ⟨bytes', hbytes', hsound⟩ := h
  cases hbytes.symm.trans hbytes'
  exact ⟨bytes, hbytes, hsound.step hkeeps.len hkeeps.inBounds hkeeps.stored hstep⟩

/-- A copy that was not lapped is the payload. -/
theorem Copies.payload {buf : ℕ → UInt8} (hv : v.Truthful acap ref)
    (hholds : v.Holds cursor packet) (h : v.Copies acap ref cursor packet (.done false buf)) :
    v.payload cursor = some ((List.range (ref packet).len).map buf) := by
  obtain ⟨bytes, hbytes, hkeeps⟩ := hholds.keeps hv
  obtain ⟨bytes', hbytes', hsound⟩ := h
  cases hbytes.symm.trans hbytes'
  rw [hbytes, hsound.eq_bytes hkeeps.len]

/-- A copy ends with a look at the counter. -/
theorem lapped_of_done {rd : BlobReadPc UInt8} {x : Option ℕ} {lapped : Bool} {buf : ℕ → UInt8}
    {m : ArenaMem UInt8} {r : BlobRef} (h : rd.step acap m r x = some (.done lapped buf)) :
    isLapped acap m.reserved r = lapped := by
  cases rd with
  | done => cases x <;> cases h
  | copy left buf =>
    cases x with
    | some i =>
      simp only [BlobReadPc.step] at h
      split_ifs at h
      cases h
    | none =>
      simp only [BlobReadPc.step] at h
      split_ifs at h
      cases h
      rfl

end BlobView

/-! ## A blob channel -/

/-- The descriptor of a packet, which ends it. -/
def sourceRef (packet : Payload w UInt8) : BlobRef := blobRefAt (payloadBytes packet)

namespace Source

variable {ρ : Type} {cfg : SourceConfig w} {b : PacketConfig} {s s' : Source ρ w}

/-- What the readers of a blob channel see. -/
def blobView (s : Source ρ w) : BlobView w UInt8 := ⟨s.sys.view, s.arena, fun k => s.blobs[k - 1]?⟩

/-- Every packet has its payload. -/
theorem BlobInv.keeps (h : s.BlobInv b) {k : ℕ} {packet : Payload w UInt8}
    (hk : s.message k = some packet) :
    ∃ bytes, s.blobs[k - 1]? = some bytes ∧ s.arena.Keeps b.arena (sourceRef packet) bytes := by
  have hlt : k - 1 < s.blobs.length := by
    rw [h.length]
    exact (List.getElem?_eq_some_iff.mp hk).1
  have hbytes := List.getElem?_eq_getElem hlt
  obtain ⟨hmem, hlen, -⟩ := h.packet k packet _ hk hbytes
  obtain ⟨hgranted, -, hstored⟩ := h.writer.written _ _ hmem
  exact ⟨_, hbytes, hlen, (h.writer.allocated.placed _ hgranted).1, hstored⟩

/-- **The readers of a blob channel see a truthful view.** -/
theorem Inv.truthful [DecidableEq ρ] (h : s.Inv cfg) (hb : cfg.blob = some b) :
    s.blobView.Truthful b.arena sourceRef where
  ring := System.view_truthful h.sys.ring
  small k hk := by
    have hbound : s.sys.producer.seq ≤ 2 ^ 63 := h.bound
    have hlt : k < s.sys.producer.seq := hk.2
    unfold slotWriting u64Max
    omega
  keeps k packet hk := (h.blob b hb).keeps hk

/-- **What they see evolves with every step of the channel.** -/
theorem Inv.evolves [DecidableEq ρ] {a : SourceLabel ρ w} (h : s.Inv cfg)
    (hstep : s.step cfg a = some s') : s.blobView.Evolves s'.blobView where
  ring := (h.grows (step_move hstep)).view
  reserved := (h.grows (step_move hstep)).reserved
  payload k bytes hk := by
    obtain ⟨rest, hrest⟩ := (h.grows (step_move hstep)).blobs
    obtain ⟨hlt, -⟩ := List.getElem?_eq_some_iff.mp hk
    change s'.blobs[k - 1]? = some bytes
    rw [← hrest, List.getElem?_append_left hlt]
    exact hk

end Source

/-! ## The steps of a consumer -/

namespace BlobReceiver

variable {cap : Capacity} {acap : ArenaCapacity} {ref : Payload w ω → BlobRef}

/-- What a step is, one case for each memory access and what it leads to. -/
inductive Moves [Inhabited ω] (cap : Capacity) (acap : ArenaCapacity) (ref : Payload w ω → BlobRef)
    (m : BlobMemory w ω) (c : BlobReceiver w ω) : BlobReceiver w ω → Prop where
  | call (room : Option ℕ) (pc : c.pc = .idle) :
      Moves cap acap ref m c { c with pc := .reading room 0 .load }
  | read (room : Option ℕ) (skipped : ℕ) (rd rd' : ReadPc w ω) (x : Option (Fin w))
      (pc : c.pc = .reading room skipped rd)
      (step : rd.step (m.slots (slotIndex cap c.cursor)) c.cursor x = some rd') :
      Moves cap acap ref m c { c with pc := .reading room skipped rd' }
  | done (room : Option ℕ) (skipped : ℕ) (rd : ReadPc w ω) (r : SlotRead (Payload w ω))
      (c' : BlobReceiver w ω) (pc : c.pc = .reading room skipped rd)
      (step : rd.step (m.slots (slotIndex cap c.cursor)) c.cursor none = some (.done r))
      (next : c.afterRead acap ref room skipped r = some c') : Moves cap acap ref m c c'
  | lapped (room : Option ℕ) (skipped : ℕ) (packet : Payload w ω)
      (pc : c.pc = .lapCheck room skipped packet)
      (lapped : isLapped acap m.arena.reserved (ref packet) = true) :
      Moves cap acap ref m c (c.lapTo room skipped (c.cursor + 1))
  | refused (room : Option ℕ) (skipped : ℕ) (packet : Payload w ω)
      (pc : c.pc = .lapCheck room skipped packet) : Moves cap acap ref m c { c with pc := .idle }
  | view (room : Option ℕ) (skipped : ℕ) (packet : Payload w ω)
      (pc : c.pc = .lapCheck room skipped packet) :
      Moves cap acap ref m c { c with pc := .view room skipped packet (.start (ref packet)) }
  | copy (room : Option ℕ) (skipped : ℕ) (packet : Payload w ω) (rd rd' : BlobReadPc UInt8)
      (x : Option ℕ) (pc : c.pc = .view room skipped packet rd)
      (step : rd.step acap m.arena (ref packet) x = some rd') :
      Moves cap acap ref m c (c.afterView ref room skipped packet rd')
  | skip (room : Option ℕ) (skipped seen : ℕ) (pc : c.pc = .skipLoad room skipped seen)
      (lt : c.cursor < oldestRetained (max m.writeSeq seen) cap.val) :
      Moves cap acap ref m c (c.lapTo room skipped (oldestRetained (max m.writeSeq seen) cap.val))
  | giveUp (room : Option ℕ) (skipped seen : ℕ) (pc : c.pc = .skipLoad room skipped seen) :
      Moves cap acap ref m c { c with pc := .idle }
  | hole (room : Option ℕ) (skipped : ℕ) (pc : HolePc) (c' : BlobReceiver w ω)
      (old : c.pc = .hole room skipped pc) : Moves cap acap ref m c c'

/-- **There are no other steps.** -/
theorem step_moves [Inhabited ω] {m : BlobMemory w ω} {c c' : BlobReceiver w ω}
    {a : ReceiverLabel w} (h : c.step cap acap ref m a = some c') : Moves cap acap ref m c c' := by
  unfold step at h
  split at h
  case h_1 room hpc =>
    cases h
    exact .call room hpc
  -- the slot
  case h_2 room skipped rd i hpc =>
    obtain ⟨rd', hr, rfl⟩ := Option.map_eq_some_iff.mp h
    exact .read room skipped rd rd' _ hpc hr
  case h_3 room skipped rd hpc =>
    cases hr : rd.step (m.slots (slotIndex cap c.cursor)) c.cursor none with
    | none =>
      rw [hr] at h
      cases h
    | some rd' =>
      rw [hr] at h
      cases rd' with
      | done r => exact .done room skipped rd r c' hpc hr h
      | load | copy =>
        cases h
        exact .read room skipped rd _ none hpc hr
  -- the payload
  case h_4 room skipped packet hpc =>
    split_ifs at h with hlapped <;> cases h
    · exact .lapped room skipped packet hpc hlapped
    · exact .refused room skipped packet hpc
    · exact .view room skipped packet hpc
  case h_5 room skipped packet rd i hpc | h_6 room skipped packet rd hpc =>
    obtain ⟨rd', hr, rfl⟩ := Option.map_eq_some_iff.mp h
    exact .copy room skipped packet rd rd' _ hpc hr
  case h_7 room skipped seen hpc =>
    split_ifs at h with hlt <;> cases h
    · exact .skip room skipped seen hpc hlt
    · exact .giveUp room skipped seen hpc
  case h_8 room skipped pc hpc => exact .hole room skipped pc c' hpc
  case h_9 => cases h

/-! ## What a consumer knows -/

/-- What a consumer in the middle of a call knows. -/
def PcSound (cap : Capacity) (acap : ArenaCapacity) (ref : Payload w ω → BlobRef)
    (v : BlobView w ω) (c : BlobReceiver w ω) : Prop :=
  match c.pc with
  | .idle => True
  | .reading _ _ rd => v.Reads cap c.cursor rd
  | .lapCheck _ _ packet => v.Holds c.cursor packet
  | .view _ _ packet rd => v.Holds c.cursor packet ∧ v.Copies acap ref c.cursor packet rd
  | .skipLoad _ _ seen => seen = 0 ∨ v.ring.stored seen
  | .hole _ _ _ => c.sparse = true

/-- What holds of a consumer on a channel without holes, between any two of its steps. -/
structure Inv (cap : Capacity) (acap : ArenaCapacity) (ref : Payload w ω → BlobRef)
    (v : BlobView w ω) (c : BlobReceiver w ω) : Prop where
  one_le : 1 ≤ c.cursor
  lt : c.cursor < slotWriting
  dense : c.sparse = false
  pc : c.PcSound cap acap ref v
  delivered : ∀ k x, (k, x) ∈ c.delivered → v.ring.message k = some x.1 ∧ v.payload k = some x.2

variable {v v' : BlobView w ω} {c c' : BlobReceiver w ω} {cursor : ℕ} {packet : Payload w ω}

/-- **What a consumer knows survives the steps of the producer.** -/
theorem Inv.evolves (h : c.Inv cap acap ref v) (he : v.Evolves v') : c.Inv cap acap ref v' := by
  refine ⟨h.one_le, h.lt, h.dense, ?_, fun k x hx => ?_⟩
  · have hpc := h.pc
    unfold PcSound at *
    split at hpc
    · trivial
    · exact hpc.evolves h.lt he
    · exact hpc.evolves he
    · exact ⟨hpc.1.evolves he, hpc.2.evolves he⟩
    · exact hpc.imp_right (he.ring.stored _)
    · exact hpc
  · exact (h.delivered k x hx).imp (he.ring.message _ _) (he.payload _ _)

/-- A consumer that starts at a retained sequence. -/
theorem Inv.attach (hv : v.Truthful acap ref) : (BlobReceiver.attach false
    (oldestRetained v.ring.writeSeq cap.val) 0).Inv cap acap ref v where
  one_le := one_le_oldestRetained _ _
  lt := hv.oldest_lt hv.ring.writeSeq
  dense := rfl
  pc := trivial
  delivered := by
    intro k x hx
    cases hx

/-! ## What a step does -/

/-- A step keeps what the consumer knows, and its books. -/
structure Advances (cap : Capacity) (acap : ArenaCapacity) (ref : Payload w ω → BlobRef)
    (v : BlobView w ω) (c c' : BlobReceiver w ω) : Prop where
  inv : c'.Inv cap acap ref v
  books : v.Books cap acap ref 0 c.toAccount c'.toAccount

/-- The cursor stays. -/
theorem Advances.stay (h : c.Inv cap acap ref v) (haccount : c'.toAccount = c.toAccount)
    (hsparse : c'.sparse = c.sparse) (hpc : c'.PcSound cap acap ref v) :
    Advances cap acap ref v c c' where
  inv := by
    refine ⟨?_, ?_, hsparse.trans h.dense, hpc, ?_⟩ <;> rw [haccount]
    · exact h.one_le
    · exact h.lt
    · exact h.delivered
  books := haccount ▸ .refl v _

/-- The cursor passes lost sequences. -/
theorem Advances.lap (h : c.Inv cap acap ref v) {room : Option ℕ} {skipped target : ℕ}
    (hle : c.cursor ≤ target) (hlt : target < slotWriting)
    (hlost : ∀ n, c.cursor ≤ n → n < target → v.Lost cap acap ref 0 n) :
    Advances cap acap ref v c (c.lapTo room skipped target) where
  inv := ⟨h.one_le.trans hle, hlt, h.dense, trivial, h.delivered⟩
  books := .lap hle hlost

/-- The cursor passes a message whose payload was overwritten. -/
theorem Advances.lapOne (hv : v.Truthful acap ref) (h : c.Inv cap acap ref v) {room : Option ℕ}
    {skipped : ℕ} (hholds : v.Holds c.cursor packet)
    (hlapped : isLapped acap v.arena.reserved (ref packet) = true) :
    Advances cap acap ref v c (c.lapTo room skipped (c.cursor + 1)) := by
  refine .lap h (Nat.le_succ _) (hv.small _ hholds.stored) fun n hn hn' => ?_
  obtain rfl : n = c.cursor := by omega
  exact .lapped packet hholds.message (Nat.zero_le _) hlapped

/-- The slot was read. -/
theorem Inv.afterRead [Inhabited ω] (hv : v.Truthful acap ref) (h : c.Inv cap acap ref v)
    {room : Option ℕ} {skipped : ℕ} {rd : ReadPc w ω} {r : SlotRead (Payload w ω)}
    (hreads : v.Reads cap c.cursor rd)
    (hstep : rd.step (v.ring.slots (slotIndex cap c.cursor)) c.cursor none = some (.done r))
    (hnext : c.afterRead acap ref room skipped r = some c') : Advances cap acap ref v c c' := by
  cases r with
  | item packet =>
    have hholds := hreads.holds hv h.one_le h.lt hstep
    obtain ⟨bytes, -, hkeeps⟩ := hholds.keeps hv
    simp only [BlobReceiver.afterRead, hkeeps.inBounds, Bool.true_eq_false, if_false] at hnext
    split_ifs at hnext
    cases hnext
    exact .stay h rfl rfl hholds
  | overwritten seen =>
    cases hnext
    exact .stay h rfl rfl (hv.overwritten hstep)
  | pending =>
    simp only [BlobReceiver.afterRead, h.dense, Bool.false_eq_true, if_false] at hnext
    cases hnext
    exact .stay h rfl h.dense.symm trivial

/-- The bytes were copied, or some of them. -/
theorem Inv.afterView [Inhabited ω] (hv : v.Truthful acap ref) (h : c.Inv cap acap ref v)
    {room : Option ℕ} {skipped : ℕ} {rd rd' : BlobReadPc UInt8} {x : Option ℕ}
    (hholds : v.Holds c.cursor packet) (hcopies : v.Copies acap ref c.cursor packet rd)
    (hstep : rd.step acap v.arena (ref packet) x = some rd') :
    Advances cap acap ref v c (c.afterView ref room skipped packet rd') := by
  have hcopies' := hcopies.step hv hholds hstep
  cases rd' with
  | copy left buf => exact .stay h rfl rfl ⟨hholds, hcopies'⟩
  | done lapped buf =>
    cases lapped with
    | true => exact .lapOne hv h hholds (BlobView.lapped_of_done hstep)
    | false =>
      refine ⟨⟨Nat.le_add_left 1 _, hv.small _ hholds.stored, h.dense, trivial, fun k y hy => ?_⟩,
        .deliver v _ _⟩
      rcases List.mem_append.mp hy with hy | hy
      · exact h.delivered k y hy
      · obtain ⟨rfl, rfl⟩ := Prod.mk.inj (List.mem_singleton.mp hy)
        exact ⟨hholds.message, hcopies'.payload hv hholds⟩

/-- **A step returns the right message, or counts a lost sequence, or moves nothing.** -/
theorem Inv.advance [Inhabited ω] {a : ReceiverLabel w} (hv : v.Truthful acap ref)
    (h : c.Inv cap acap ref v) (hstep : c.step cap acap ref v.memory a = some c') :
    Advances cap acap ref v c c' := by
  have hpc := h.pc
  unfold PcSound at hpc
  cases step_moves hstep with
  | call room => exact .stay h rfl rfl trivial
  | read room skipped rd rd' x pc step =>
    rw [pc] at hpc
    exact .stay h rfl rfl (hpc.step hv h.one_le h.lt step)
  | done room skipped rd r _ pc step next =>
    rw [pc] at hpc
    exact h.afterRead hv hpc step next
  | lapped room skipped packet pc lapped =>
    rw [pc] at hpc
    exact .lapOne hv h hpc lapped
  | refused room skipped packet pc => exact .stay h rfl rfl trivial
  | view room skipped packet pc =>
    rw [pc] at hpc
    exact .stay h rfl rfl ⟨hpc, hpc.start hv⟩
  | copy room skipped packet rd rd' x pc step =>
    rw [pc] at hpc
    exact h.afterView hv hpc.1 hpc.2 step
  | skip room skipped seen pc lt =>
    rw [pc] at hpc
    obtain ⟨hlt, hlost⟩ := hv.skip 0 h.one_le hpc lt
    exact .lap h lt.le hlt hlost
  | giveUp room skipped seen pc => exact .stay h rfl rfl trivial
  | hole room skipped pc _ old =>
    -- the channel has no holes, so nobody looks for one
    rw [old, h.dense] at hpc
    cases hpc

end BlobReceiver

end Ringfire
