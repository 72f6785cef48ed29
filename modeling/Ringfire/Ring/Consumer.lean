import Ringfire.Ring.Account
import Ringfire.Ring.Slot

/-!
# The broadcast consumer

`RingConsumer` of `spmc.rs`, cut into its memory accesses. `next_item` reads the slot of the
cursor with `read_slot`; when the message was overwritten it reloads `write_seq` and skips to the
oldest retained sequence, when the slot is stale it gives up, except that on a ring with several
producers it skips once the writers are a full ring ahead, and on a sparse ring every 64th empty
poll looks for a hole.

A consumer reads the slots and `write_seq` and stores nothing but its registered cursor, so a
step takes the shared memory it reads and returns the value it stores in its registry slot, if
any. `returned` records the results of `recv_status`; `try_recv` is `recv_status` with the status
forgotten.

## Main definitions

* `RingConsumer.step`: one memory access, or the start of a call
* `resolveStart`: the position `attach_with_options` computes
* `RingConsumer.Moves`: the steps, one constructor for each access and outcome
* `ConsumerPc.AtSlot`: the places where a call returns or goes on

## Main results

* `RingConsumer.step_moves`: there are no other steps
* `RingConsumer.step_effect`: a step either moves nothing, or delivers the cursor's message, or
  counts a range as lapped, or jumps over a range
-/

namespace Ringfire

/-- Status returned by `recv_status`. -/
inductive RecvStatus (τ : Type) where
  | ok (item : τ)
  | empty
  | lapped (skipped : ℕ) (item : τ)
  deriving DecidableEq

/-- The receive call in progress: `recv_status`, or `recv_batch` with the room left in the buffer
and the messages already in it. -/
inductive Receive where
  | status
  | batch (room got : ℕ)

/-- Where `skip_overwritten` was called from: `next_item` after an overwritten slot, `next_item`
with the writers a full ring ahead of a stale slot, or `attach_with_options`. -/
inductive SkipSite where
  | overwritten
  | stale
  | attach
  deriving DecidableEq

/-- Where a consumer stands. `skipped` is the local count of `next_item`. -/
inductive ConsumerPc (w : ℕ) (ω : Type) where
  | idle
  | reading (call : Receive) (skipped : ℕ) (rd : ReadPc w ω)
  | skipLoad (site : SkipSite) (call : Receive) (skipped seen : ℕ)
  | staleLoad (call : Receive) (skipped : ℕ)
  | holeLoad (call : Receive) (skipped : ℕ)
  | holeSeen (call : Receive) (skipped writeSeq : ℕ)
  | holeScan (call : Receive) (skipped writeSeq next : ℕ)
  | register (resume : Option (Receive × ℕ))
  | latestLoad
  | oldestLoad

/-- The consumer is in no call, stores its cursor, or is about to read the slot of its cursor. -/
inductive ConsumerPc.AtSlot {w : ℕ} {ω : Type} : ConsumerPc w ω → Prop where
  | idle : AtSlot .idle
  | register (resume : Option (Receive × ℕ)) : AtSlot (.register resume)
  | load (call : Receive) (skipped : ℕ) : AtSlot (.reading call skipped .load)

/-- The consumer's own state. -/
structure RingConsumer (w : ℕ) (ω : Type) extends Account (Payload w ω) where
  multiProducer : Bool
  sparse : Bool
  emptyPolls : ℕ
  registered : Bool
  pc : ConsumerPc w ω
  returned : List (RecvStatus (Payload w ω))

/-- The calls of a consumer. -/
inductive ConsumerCall where
  | recvStatus
  | recvBatch (room : ℕ)
  | jumpToLatest
  | jumpToOldest
  deriving DecidableEq

/-- A consumer's step: the start of a call, a payload word, or whatever comes next. -/
inductive ConsumerLabel (w : ℕ) where
  | call (c : ConsumerCall)
  | word (i : Fin w)
  | tick

/-- Initial cursor positioning, including the position stored in a checkpoint. -/
inductive StartPosition where
  | latest
  | head
  | oldest
  | sequence (seq : ℕ)
  | checkpoint (saved : ℕ)

/-- The cursor and the lapped count a consumer starts with, when `write_seq` was loaded. -/
def resolveStart (cap : Capacity) (writeSeq : ℕ) : StartPosition → ℕ × ℕ
  | .latest => (max writeSeq 1, 0)
  | .head => (writeSeq + 1, 0)
  | .oldest => (oldestRetained writeSeq cap.val, 0)
  | .sequence seq =>
    if max seq 1 < oldestRetained writeSeq cap.val then
      (oldestRetained writeSeq cap.val, oldestRetained writeSeq cap.val - max seq 1)
    else (max seq 1, 0)
  | .checkpoint saved =>
    if saved + 1 < oldestRetained writeSeq cap.val then
      (oldestRetained writeSeq cap.val, oldestRetained writeSeq cap.val - (saved + 1))
    else (saved + 1, 0)

theorem one_le_resolveStart (cap : Capacity) (writeSeq : ℕ) (pos : StartPosition) :
    1 ≤ (resolveStart cap writeSeq pos).1 := by
  have h := one_le_oldestRetained writeSeq cap.val
  cases pos <;> simp only [resolveStart] <;> (try split) <;> simp <;> omega

namespace RingConsumer

variable {w : ℕ} {ω : Type}

/-- A consumer as `attach_with_options` builds it, before its last `skip_overwritten`. -/
def attach (multiProducer sparse registered : Bool) (cursor lappedTotal : ℕ) : RingConsumer w ω where
  cursor := cursor
  lappedTotal := lappedTotal
  multiProducer := multiProducer
  sparse := sparse
  emptyPolls := 0
  registered := registered
  pc := if registered then .skipLoad .attach .status 0 0 else .idle
  delivered := []
  lapped := []
  jumped := []
  returned := []

/-- Where a call goes on once the registered cursor is up to date. -/
def resumePc : Option (Receive × ℕ) → ConsumerPc w ω
  | none => .idle
  | some (call, skipped) => .reading call skipped .load

/-- A registered consumer stores its cursor before it goes on. -/
def settle (c : RingConsumer w ω) (resume : Option (Receive × ℕ)) : RingConsumer w ω :=
  { c with pc := if c.registered then .register resume else resumePc resume }

/-- The start of a call. -/
def start (c : RingConsumer w ω) : ConsumerCall → RingConsumer w ω
  | .recvStatus => { c with pc := .reading .status 0 .load }
  | .recvBatch 0 => c
  | .recvBatch (room + 1) => { c with pc := .reading (.batch (room + 1) 0) 0 .load }
  | .jumpToLatest => { c with pc := .latestLoad }
  | .jumpToOldest => { c with pc := .oldestLoad }

/-- `next_item` returned no message. -/
def giveUp (c : RingConsumer w ω) : Receive → RingConsumer w ω
  | .status => { c with pc := .idle, returned := c.returned ++ [.empty] }
  -- `recv_batch` stores the cursor only if it received something
  | .batch _ 0 => { c with pc := .idle }
  | .batch _ (_ + 1) => c.settle none

/-- The status `recv_status` reports with a message. -/
def statusOf (skipped : ℕ) (data : Payload w ω) : RecvStatus (Payload w ω) :=
  if 0 < skipped then .lapped skipped data else .ok data

/-- `next_item` returned `data`: the cursor passes it, and the call returns or goes on. -/
def deliver (c : RingConsumer w ω) (skipped : ℕ) (data : Payload w ω) :
    Receive → RingConsumer w ω
  | .status =>
    { c with
      toAccount := c.toAccount.deliver data
      returned := c.returned ++ [statusOf skipped data] }.settle none
  | .batch room got =>
    if room ≤ 1 then { c with toAccount := c.toAccount.deliver data }.settle none
    else
      { c with
        toAccount := c.toAccount.deliver data
        pc := .reading (.batch (room - 1) (got + 1)) 0 .load }

/-- Moves the cursor to `target`, counting what it passes as lapped. -/
def skipTo (c : RingConsumer w ω) (target : ℕ) (resume : Option (Receive × ℕ)) : RingConsumer w ω :=
  { c with toAccount := c.toAccount.lap target }.settle resume

/-- Where a call goes on after `skip_overwritten` skipped `s` sequences. -/
def skipResume (site : SkipSite) (call : Receive) (skipped s : ℕ) : Option (Receive × ℕ) :=
  match site with
  | .overwritten | .stale => some (call, skipped + s)
  | .attach => none

/-- `skip_overwritten(seen)` once `write_seq` is loaded. -/
def skipOverwritten (cap : Capacity) (writeSeq : ℕ) (c : RingConsumer w ω) (site : SkipSite)
    (call : Receive) (skipped seen : ℕ) : RingConsumer w ω :=
  if c.cursor < oldestRetained (max writeSeq seen) cap.val then
    c.skipTo (oldestRetained (max writeSeq seen) cap.val)
      (skipResume site call skipped (oldestRetained (max writeSeq seen) cap.val - c.cursor))
  else
    -- nothing to skip: `next_item` returns after an overwritten slot, but tries a stale one again
    match site with
    | .overwritten => c.giveUp call
    | .stale => { c with pc := .reading call skipped .load }
    | .attach => { c with pc := .idle }

/-- `next_item` after `read_slot` returned. -/
def afterRead (c : RingConsumer w ω) (call : Receive) (skipped : ℕ) :
    SlotRead (Payload w ω) → Option (RingConsumer w ω)
  -- `self.cursor += 1` stays within `u64`
  | .item data => if c.cursor + 1 ≤ u64Max then some (c.deliver skipped data call) else none
  | .overwritten seen => some { c with pc := .skipLoad .overwritten call skipped seen }
  | .pending =>
    -- normally just caught up; a producer that died mid-publish leaves its slot so as well
    if c.multiProducer then some { c with pc := .staleLoad call skipped }
    else if c.sparse then
      -- `skip_hole` on every 64th empty poll
      if (c.emptyPolls + 1) % 2 ^ 32 &&& 63 = 0 then
        some { c with emptyPolls := (c.emptyPolls + 1) % 2 ^ 32, pc := .holeLoad call skipped }
      else some ({ c with emptyPolls := (c.emptyPolls + 1) % 2 ^ 32 }.giveUp call)
    else some (c.giveUp call)

/-- `jump_to_latest` and `jump_to_oldest` once the target is known. -/
def jumpTo (c : RingConsumer w ω) (target : ℕ) : RingConsumer w ω :=
  if c.cursor < target then { c with toAccount := c.toAccount.jump target }.settle none
  else { c with pc := .idle }

/-- One memory access of the consumer; the second component is the value it stores in its
registry slot. -/
def step [Inhabited ω] (cap : Capacity) (slots : ℕ → Slot w ω) (writeSeq : ℕ)
    (c : RingConsumer w ω) (a : ConsumerLabel w) : Option (RingConsumer w ω × Option ℕ) :=
  match c.pc, a with
  | .idle, .call call => some (c.start call, none)
  -- `read_slot`: the sequence, the words in any order, the sequence again
  | .reading call skipped rd, .word i =>
    match rd.step (slots (slotIndex cap c.cursor)) c.cursor (some i) with
    | some rd' => some ({ c with pc := .reading call skipped rd' }, none)
    | none => none
  | .reading call skipped rd, .tick =>
    match rd.step (slots (slotIndex cap c.cursor)) c.cursor none with
    | some (.done r) => (c.afterRead call skipped r).map (·, none)
    | some rd' => some ({ c with pc := .reading call skipped rd' }, none)
    | none => none
  | .skipLoad site call skipped seen, .tick =>
    some (c.skipOverwritten cap writeSeq site call skipped seen, none)
  -- several producers: once the writers are a full ring ahead the message is gone either way
  | .staleLoad call skipped, .tick =>
    if c.cursor + cap.val ≤ u64Max then
      if c.cursor + cap.val ≤ writeSeq then
        some ({ c with pc := .skipLoad .stale call skipped 0 }, none)
      else some (c.giveUp call, none)
    else none
  -- `skip_hole`: `write_seq`, the slot of the cursor once more, then the slots after it
  | .holeLoad call skipped, .tick =>
    if writeSeq < c.cursor then some (c.giveUp call, none)
    else some ({ c with pc := .holeSeen call skipped writeSeq }, none)
  | .holeSeen call skipped ws, .tick =>
    if (slots (slotIndex cap c.cursor)).seq = slotWriting ∨
        c.cursor ≤ (slots (slotIndex cap c.cursor)).seq then
      some (c.giveUp call, none)
    else some ({ c with
      pc := .holeScan call skipped ws (max (oldestRetained ws cap.val) (c.cursor + 1)) }, none)
  | .holeScan call skipped ws next, .tick =>
    if next ≤ ws ∧ (slots (slotIndex cap next)).seq ≠ next then
      some ({ c with pc := .holeScan call skipped ws (next + 1) }, none)
    else some (c.skipTo next (some (call, skipped + (next - c.cursor))), none)
  -- `update_cursor`
  | .register resume, .tick => some ({ c with pc := resumePc resume }, some c.cursor)
  | .latestLoad, .tick => some (c.jumpTo writeSeq, none)
  | .oldestLoad, .tick => some (c.jumpTo (oldestRetained writeSeq cap.val), none)
  | _, _ => none

/-! ## The steps there are -/

/-- What a step is, one case for each memory access of the source and what it leads to. -/
inductive Moves [Inhabited ω] (cap : Capacity) (slots : ℕ → Slot w ω) (writeSeq : ℕ)
    (c : RingConsumer w ω) : ConsumerLabel w → RingConsumer w ω → Option ℕ → Prop where
  | call (call : ConsumerCall) (pc : c.pc = .idle) :
      Moves cap slots writeSeq c (.call call) (c.start call) none
  | word (call : Receive) (skipped : ℕ) (rd rd' : ReadPc w ω) (i : Fin w)
      (pc : c.pc = .reading call skipped rd)
      (read : rd.step (slots (slotIndex cap c.cursor)) c.cursor (some i) = some rd') :
      Moves cap slots writeSeq c (.word i) { c with pc := .reading call skipped rd' } none
  | load (call : Receive) (skipped : ℕ) (rd rd' : ReadPc w ω) (pc : c.pc = .reading call skipped rd)
      (read : rd.step (slots (slotIndex cap c.cursor)) c.cursor none = some rd') :
      Moves cap slots writeSeq c .tick { c with pc := .reading call skipped rd' } none
  | done (call : Receive) (skipped : ℕ) (rd : ReadPc w ω) (r : SlotRead (Payload w ω))
      (c' : RingConsumer w ω) (pc : c.pc = .reading call skipped rd)
      (read : rd.step (slots (slotIndex cap c.cursor)) c.cursor none = some (.done r))
      (after : c.afterRead call skipped r = some c') : Moves cap slots writeSeq c .tick c' none
  | skip (site : SkipSite) (call : Receive) (skipped seen : ℕ)
      (pc : c.pc = .skipLoad site call skipped seen) :
      Moves cap slots writeSeq c .tick (c.skipOverwritten cap writeSeq site call skipped seen) none
  | stale (call : Receive) (skipped : ℕ) (pc : c.pc = .staleLoad call skipped) :
      Moves cap slots writeSeq c .tick { c with pc := .skipLoad .stale call skipped 0 } none
  | giveUp (call : Receive) (skipped : ℕ)
      (pc : c.pc = .staleLoad call skipped ∨ c.pc = .holeLoad call skipped ∨
        ∃ ws, c.pc = .holeSeen call skipped ws) :
      Moves cap slots writeSeq c .tick (c.giveUp call) none
  | hole (call : Receive) (skipped : ℕ) (pc : c.pc = .holeLoad call skipped) :
      Moves cap slots writeSeq c .tick { c with pc := .holeSeen call skipped writeSeq } none
  | scan (call : Receive) (skipped ws : ℕ) (pc : c.pc = .holeSeen call skipped ws) :
      Moves cap slots writeSeq c .tick
        { c with pc := .holeScan call skipped ws (max (oldestRetained ws cap.val) (c.cursor + 1)) }
        none
  | scanNext (call : Receive) (skipped ws next : ℕ) (pc : c.pc = .holeScan call skipped ws next) :
      Moves cap slots writeSeq c .tick { c with pc := .holeScan call skipped ws (next + 1) } none
  | found (call : Receive) (skipped ws next : ℕ) (pc : c.pc = .holeScan call skipped ws next) :
      Moves cap slots writeSeq c .tick
        (c.skipTo next (some (call, skipped + (next - c.cursor)))) none
  | register (resume : Option (Receive × ℕ)) (pc : c.pc = .register resume) :
      Moves cap slots writeSeq c .tick { c with pc := resumePc resume } (some c.cursor)
  | jump (target : ℕ) (pc : c.pc = .latestLoad ∨ c.pc = .oldestLoad) :
      Moves cap slots writeSeq c .tick (c.jumpTo target) none

theorem step_moves [Inhabited ω] {cap : Capacity} {slots : ℕ → Slot w ω} {writeSeq : ℕ}
    {c c' : RingConsumer w ω} {a : ConsumerLabel w} {stored : Option ℕ}
    (h : c.step cap slots writeSeq a = some (c', stored)) :
    Moves cap slots writeSeq c a c' stored := by
  unfold step at h
  split at h
  case h_1 call hpc =>
    cases h
    exact .call call hpc
  -- `read_slot`: a payload word, or one of the loads of the sequence
  case h_2 call skipped rd i hpc =>
    split at h
    · next rd' hr =>
      cases h
      exact .word call skipped rd rd' i hpc hr
    · cases h
  case h_3 call skipped rd hpc =>
    split at h
    case h_1 r hr =>
      obtain ⟨c'', hc, he⟩ := Option.map_eq_some_iff.mp h
      cases he
      exact .done call skipped rd r c' hpc hr hc
    case h_2 rd' _ hr =>
      cases h
      exact .load call skipped rd rd' hpc hr
    case h_3 => cases h
  -- `skip_overwritten`, and the check that leads to it on a ring with several producers
  case h_4 site call skipped seen hpc =>
    cases h
    exact .skip site call skipped seen hpc
  case h_5 call skipped hpc =>
    split_ifs at h
    · cases h
      exact .stale call skipped hpc
    · cases h
      exact .giveUp call skipped (.inl hpc)
  -- `skip_hole`
  case h_6 call skipped hpc =>
    split_ifs at h
    · cases h
      exact .giveUp call skipped (.inr (.inl hpc))
    · cases h
      exact .hole call skipped hpc
  case h_7 call skipped ws hpc =>
    split_ifs at h
    · cases h
      exact .giveUp call skipped (.inr (.inr ⟨ws, hpc⟩))
    · cases h
      exact .scan call skipped ws hpc
  case h_8 call skipped ws next hpc =>
    split_ifs at h
    · cases h
      exact .scanNext call skipped ws next hpc
    · cases h
      exact .found call skipped ws next hpc
  -- the registered cursor, and the two jumps
  case h_9 resume hpc =>
    cases h
    exact .register resume hpc
  case h_10 hpc =>
    cases h
    exact .jump _ (.inl hpc)
  case h_11 hpc =>
    cases h
    exact .jump _ (.inr hpc)
  case h_12 => cases h

/-! ## What a step does to the cursor -/

/-- The consumer is inside `jump_to_latest` or `jump_to_oldest`. -/
def jumping (c : RingConsumer w ω) : Bool :=
  match c.pc with
  | .latestLoad | .oldestLoad => true
  | _ => false

/-- The moves a consumer's step can make. `stored` is what it stores in its registry slot. -/
inductive Effect (cap : Capacity) (slots : ℕ → Slot w ω) (writeSeq : ℕ) [Inhabited ω]
    (c c' : RingConsumer w ω) (stored : Option ℕ) : Prop where
  | stay (account : c'.toAccount = c.toAccount) (registry : stored = none ∨ stored = some c.cursor)
  | deliver (call : Receive) (skipped : ℕ) (rd : ReadPc w ω) (data : Payload w ω)
      (pc : c.pc = .reading call skipped rd)
      (read : rd.step (slots (slotIndex cap c.cursor)) c.cursor none = some (.done (.item data)))
      (fits : c.cursor + 1 ≤ u64Max)
      (account : c'.toAccount = c.toAccount.deliver data) (registry : stored = none)
  | lap (site : SkipSite) (call : Receive) (skipped seen : ℕ)
      (pc : c.pc = .skipLoad site call skipped seen)
      (lt : c.cursor < oldestRetained (max writeSeq seen) cap.val)
      (account : c'.toAccount = c.toAccount.lap (oldestRetained (max writeSeq seen) cap.val))
      (registry : stored = none)
  | hole (call : Receive) (skipped ws next : ℕ) (pc : c.pc = .holeScan call skipped ws next)
      (account : c'.toAccount = c.toAccount.lap next) (registry : stored = none)
  | jump (target : ℕ) (pc : c.jumping = true) (lt : c.cursor < target)
      (account : c'.toAccount = c.toAccount.jump target) (registry : stored = none)

/-- What a consumer stores in its registry slot is its cursor. -/
theorem Effect.stored_eq [Inhabited ω] {cap : Capacity} {slots : ℕ → Slot w ω} {writeSeq : ℕ}
    {c c' : RingConsumer w ω} {stored : Option ℕ} (h : Effect cap slots writeSeq c c' stored) :
    stored = none ∨ stored = some c.cursor := by
  cases h with
  | stay account registry => exact registry
  | deliver _ _ _ _ _ _ _ _ registry => exact .inl registry
  | lap _ _ _ _ _ _ _ registry => exact .inl registry
  | hole _ _ _ _ _ _ registry => exact .inl registry
  | jump _ _ _ _ registry => exact .inl registry

@[simp] theorem giveUp_account (c : RingConsumer w ω) (call : Receive) :
    (c.giveUp call).toAccount = c.toAccount := by
  unfold giveUp
  split <;> rfl

@[simp] theorem start_account (c : RingConsumer w ω) (call : ConsumerCall) :
    (c.start call).toAccount = c.toAccount := by
  unfold start
  split <;> rfl

@[simp] theorem deliver_account (c : RingConsumer w ω) (skipped : ℕ) (data : Payload w ω)
    (call : Receive) : (c.deliver skipped data call).toAccount = c.toAccount.deliver data := by
  unfold deliver
  split
  · rfl
  · split_ifs <;> rfl

theorem afterRead_account {c c' : RingConsumer w ω} {call : Receive} {skipped : ℕ}
    {r : SlotRead (Payload w ω)} (h : c.afterRead call skipped r = some c') :
    (∃ data, r = .item data ∧ c.cursor + 1 ≤ u64Max ∧
      c'.toAccount = c.toAccount.deliver data) ∨ c'.toAccount = c.toAccount := by
  cases r with
  | item data =>
    simp only [afterRead] at h
    split_ifs at h with hfits
    cases h
    exact .inl ⟨data, rfl, hfits, deliver_account c skipped data call⟩
  | overwritten seen =>
    cases h
    exact .inr rfl
  | pending =>
    simp only [afterRead] at h
    split_ifs at h <;> cases h
    · exact .inr rfl
    · exact .inr rfl
    · exact .inr (by rw [giveUp_account])
    · exact .inr (giveUp_account c call)

/-- **What one step does to the cursor**: nothing, or it returns the message of the slot just
read, counts a range as lapped, or jumps on request. -/
theorem step_effect [Inhabited ω] {cap : Capacity} {slots : ℕ → Slot w ω} {writeSeq : ℕ}
    {c c' : RingConsumer w ω} {a : ConsumerLabel w} {stored : Option ℕ}
    (h : c.step cap slots writeSeq a = some (c', stored)) :
    Effect cap slots writeSeq c c' stored := by
  cases step_moves h with
  | call call => exact .stay (start_account c call) (.inl rfl)
  | done call skipped rd r _ hpc hr hc =>
    rcases afterRead_account hc with ⟨data, rfl, hfits, hacc⟩ | hacc
    · exact .deliver call skipped rd data hpc hr hfits hacc rfl
    · exact .stay hacc (.inl rfl)
  | skip site call skipped seen hpc =>
    unfold skipOverwritten
    split_ifs with hlt
    · exact .lap site call skipped seen hpc hlt rfl rfl
    · refine .stay ?_ (.inl rfl)
      cases site with
      | overwritten => exact giveUp_account c call
      | stale | attach => rfl
  | giveUp call => exact .stay (giveUp_account c call) (.inl rfl)
  | found call skipped ws next hpc => exact .hole call skipped ws next hpc rfl rfl
  | register => exact .stay rfl (.inr rfl)
  | jump target hpc =>
    unfold jumpTo
    split_ifs with hlt
    · refine .jump target ?_ hlt rfl rfl
      rcases hpc with hpc | hpc <;> simp only [jumping, hpc]
    · exact .stay rfl (.inl rfl)
  | word | load | stale | hole | scan | scanNext => exact .stay rfl (.inl rfl)

/-! ## What a step leaves alone -/

/-- What is fixed when a consumer attaches: the ring's flags, and whether it is registered. -/
def mode (c : RingConsumer w ω) : Bool × Bool × Bool := (c.multiProducer, c.sparse, c.registered)

theorem giveUp_mode (c : RingConsumer w ω) (call : Receive) : (c.giveUp call).mode = c.mode := by
  unfold giveUp
  split <;> rfl

theorem start_mode (c : RingConsumer w ω) (call : ConsumerCall) : (c.start call).mode = c.mode := by
  unfold start
  split <;> rfl

theorem deliver_mode (c : RingConsumer w ω) (skipped : ℕ) (data : Payload w ω) (call : Receive) :
    (c.deliver skipped data call).mode = c.mode := by
  unfold deliver
  split
  · rfl
  · split_ifs <;> rfl

theorem jumpTo_mode (c : RingConsumer w ω) (target : ℕ) : (c.jumpTo target).mode = c.mode := by
  unfold jumpTo
  split_ifs <;> rfl

theorem skipOverwritten_mode (cap : Capacity) (writeSeq : ℕ) (c : RingConsumer w ω)
    (site : SkipSite) (call : Receive) (skipped seen : ℕ) :
    (c.skipOverwritten cap writeSeq site call skipped seen).mode = c.mode := by
  unfold skipOverwritten
  split_ifs
  · rfl
  · cases site
    · exact giveUp_mode c call
    · rfl
    · rfl

theorem afterRead_mode {c c' : RingConsumer w ω} {call : Receive} {skipped : ℕ}
    {r : SlotRead (Payload w ω)} (h : c.afterRead call skipped r = some c') : c'.mode = c.mode := by
  cases r with
  | item data =>
    simp only [afterRead] at h
    split_ifs at h
    cases h
    exact deliver_mode c skipped data call
  | overwritten seen =>
    cases h
    rfl
  | pending =>
    simp only [afterRead] at h
    split_ifs at h <;> cases h
    · rfl
    · rfl
    · rw [giveUp_mode]; rfl
    · exact giveUp_mode c call

theorem step_mode [Inhabited ω] {cap : Capacity} {slots : ℕ → Slot w ω} {writeSeq : ℕ}
    {c c' : RingConsumer w ω} {a : ConsumerLabel w} {stored : Option ℕ}
    (h : c.step cap slots writeSeq a = some (c', stored)) : c'.mode = c.mode := by
  cases step_moves h with
  | call call => exact start_mode c call
  | done _ _ _ _ _ _ _ hc => exact afterRead_mode hc
  | skip site call skipped seen => exact skipOverwritten_mode cap writeSeq c site call skipped seen
  | giveUp call => exact giveUp_mode c call
  | jump => exact jumpTo_mode c _
  | word | load | stale | hole | scan | scanNext | found | register => rfl

/-! ## Where a call goes on -/

theorem resumePc_atSlot (resume : Option (Receive × ℕ)) :
    (resumePc resume : ConsumerPc w ω).AtSlot := by
  cases resume with
  | none => exact .idle
  | some r => exact .load r.1 r.2

theorem settle_atSlot (c : RingConsumer w ω) (resume : Option (Receive × ℕ)) :
    (c.settle resume).pc.AtSlot := by
  unfold settle
  dsimp only
  split_ifs
  · exact .register resume
  · exact resumePc_atSlot resume

theorem giveUp_atSlot (c : RingConsumer w ω) (call : Receive) : (c.giveUp call).pc.AtSlot := by
  unfold giveUp
  split
  · exact .idle
  · exact .idle
  · exact settle_atSlot c none

theorem deliver_atSlot (c : RingConsumer w ω) (skipped : ℕ) (data : Payload w ω)
    (call : Receive) : (c.deliver skipped data call).pc.AtSlot := by
  unfold deliver
  split
  · exact settle_atSlot _ none
  · split_ifs
    · exact settle_atSlot _ none
    · exact .load _ 0

theorem jumpTo_atSlot (c : RingConsumer w ω) (target : ℕ) : (c.jumpTo target).pc.AtSlot := by
  unfold jumpTo
  split_ifs
  · exact settle_atSlot _ none
  · exact .idle

theorem skipOverwritten_atSlot (cap : Capacity) (writeSeq : ℕ) (c : RingConsumer w ω)
    (site : SkipSite) (call : Receive) (skipped seen : ℕ) :
    (c.skipOverwritten cap writeSeq site call skipped seen).pc.AtSlot := by
  unfold skipOverwritten
  split_ifs
  · exact settle_atSlot _ _
  · cases site
    · exact giveUp_atSlot c call
    · exact .load call skipped
    · exact .idle

/-- After `read_slot` the call goes on at a slot, or looks at `write_seq`. -/
theorem afterRead_atSlot {c c' : RingConsumer w ω} {call : Receive} {skipped : ℕ}
    {r : SlotRead (Payload w ω)} (h : c.afterRead call skipped r = some c') :
    c'.pc.AtSlot ∨
      (∃ seen, r = .overwritten seen ∧ c'.pc = .skipLoad .overwritten call skipped seen) ∨
      c'.pc = .staleLoad call skipped ∨ c'.pc = .holeLoad call skipped ∧ c'.sparse = true := by
  cases r with
  | item data =>
    simp only [afterRead] at h
    split_ifs at h
    cases h
    exact .inl (deliver_atSlot c skipped data call)
  | overwritten seen =>
    cases h
    exact .inr (.inl ⟨seen, rfl, rfl⟩)
  | pending =>
    simp only [afterRead] at h
    split_ifs at h with _ hsparse <;> cases h
    · exact .inr (.inr (.inl rfl))
    · exact .inr (.inr (.inr ⟨rfl, hsparse⟩))
    · exact .inl (giveUp_atSlot _ call)
    · exact .inl (giveUp_atSlot c call)

/-! ## Jumps are made on request -/

theorem jumping_eq_false {c : RingConsumer w ω} (h : c.pc.AtSlot) : c.jumping = false := by
  unfold jumping
  generalize c.pc = pc at h ⊢
  cases h <;> rfl

theorem afterRead_jumping {c c' : RingConsumer w ω} {call : Receive} {skipped : ℕ}
    {r : SlotRead (Payload w ω)} (h : c.afterRead call skipped r = some c') :
    c'.jumping = false := by
  rcases afterRead_atSlot h with hslot | ⟨seen, -, hpc⟩ | hpc | ⟨hpc, -⟩
  · exact jumping_eq_false hslot
  all_goals simp only [jumping, hpc]

theorem start_jumping {c : RingConsumer w ω} {call : ConsumerCall} (hpc : c.pc = .idle)
    (hcall : call ≠ .jumpToLatest ∧ call ≠ .jumpToOldest) : (c.start call).jumping = false := by
  unfold start
  split
  · rfl
  · simp only [jumping, hpc]
  · rfl
  · exact absurd rfl hcall.1
  · exact absurd rfl hcall.2

/-- Only the two jump calls start a jump. -/
theorem step_jumping [Inhabited ω] {cap : Capacity} {slots : ℕ → Slot w ω} {writeSeq : ℕ}
    {c c' : RingConsumer w ω} {a : ConsumerLabel w} {stored : Option ℕ}
    (ha : a ≠ .call .jumpToLatest ∧ a ≠ .call .jumpToOldest)
    (h : c.step cap slots writeSeq a = some (c', stored)) : c'.jumping = false := by
  cases step_moves h with
  | call call hpc =>
    exact start_jumping hpc ⟨fun he => ha.1 (by rw [he]), fun he => ha.2 (by rw [he])⟩
  | done _ _ _ _ _ _ _ hc => exact afterRead_jumping hc
  | skip site call skipped seen =>
    exact jumping_eq_false (skipOverwritten_atSlot cap writeSeq c site call skipped seen)
  | giveUp call => exact jumping_eq_false (giveUp_atSlot c call)
  | found => exact jumping_eq_false (settle_atSlot _ _)
  | register resume => exact jumping_eq_false (resumePc_atSlot resume)
  | jump => exact jumping_eq_false (jumpTo_atSlot c _)
  | word | load | stale | hole | scan | scanNext => rfl

/-! ## Where a step leads -/

end RingConsumer

/-- No copy of a slot and no scan for a message is under way. -/
def ConsumerPc.Clear {w : ℕ} {ω : Type} : ConsumerPc w ω → Prop
  | .reading _ _ .load => True
  | .reading _ _ _ => False
  | .holeScan _ _ _ _ => False
  | _ => True

theorem ConsumerPc.AtSlot.clear {w : ℕ} {ω : Type} {pc : ConsumerPc w ω} (h : pc.AtSlot) :
    pc.Clear := by
  cases h <;> trivial

namespace RingConsumer

variable {w : ℕ} {ω : Type}

theorem afterRead_clear {c c' : RingConsumer w ω} {call : Receive} {skipped : ℕ}
    {r : SlotRead (Payload w ω)} (h : c.afterRead call skipped r = some c') : c'.pc.Clear := by
  rcases afterRead_atSlot h with hslot | ⟨seen, -, hpc⟩ | hpc | ⟨hpc, -⟩
  · exact hslot.clear
  all_goals
    rw [hpc]
    trivial

/-- Where a step of a consumer leads: to a state without a copy or a scan, to the next step of a
copy, or to the next step of a scan, which is past the cursor. -/
inductive Leads [Inhabited ω] (cap : Capacity) (slots : ℕ → Slot w ω) (c c' : RingConsumer w ω) :
    Prop where
  | clear (pc' : c'.pc.Clear)
  | read (call : Receive) (skipped : ℕ) (rd rd' : ReadPc w ω) (x : Option (Fin w))
      (pc : c.pc = .reading call skipped rd) (pc' : c'.pc = .reading call skipped rd')
      (step : rd.step (slots (slotIndex cap c.cursor)) c.cursor x = some rd')
      (cursor : c'.cursor = c.cursor)
  | scan (call : Receive) (skipped ws next : ℕ) (pc' : c'.pc = .holeScan call skipped ws next)
      (cursor : c'.cursor = c.cursor)
      (lt : c.cursor < next ∨ ∃ prior, c.pc = .holeScan call skipped ws prior ∧ prior < next)

theorem step_leads [Inhabited ω] {cap : Capacity} {slots : ℕ → Slot w ω} {writeSeq : ℕ}
    {c c' : RingConsumer w ω} {a : ConsumerLabel w} {stored : Option ℕ}
    (h : c.step cap slots writeSeq a = some (c', stored)) : Leads cap slots c c' := by
  cases step_moves h with
  | call call hpc =>
    apply Leads.clear
    cases call with
    | recvStatus | jumpToLatest | jumpToOldest => trivial
    | recvBatch room =>
      cases room with
      | zero =>
        show c.pc.Clear
        rw [hpc]
        trivial
      | succ room => trivial
  | word call skipped rd rd' i hpc hr => exact .read call skipped rd rd' _ hpc rfl hr rfl
  | load call skipped rd rd' hpc hr => exact .read call skipped rd rd' _ hpc rfl hr rfl
  | done _ _ _ _ _ _ _ hc => exact .clear (afterRead_clear hc)
  | skip site call skipped seen =>
    exact .clear (skipOverwritten_atSlot cap writeSeq c site call skipped seen).clear
  | giveUp call => exact .clear (giveUp_atSlot c call).clear
  | scan call skipped ws => exact .scan call skipped ws _ rfl rfl (.inl (by omega))
  | scanNext call skipped ws next hpc =>
    exact .scan call skipped ws _ rfl rfl (.inr ⟨next, hpc, Nat.lt_succ_self next⟩)
  | found => exact .clear (settle_atSlot _ _).clear
  | register resume => exact .clear (resumePc_atSlot resume).clear
  | jump => exact .clear (jumpTo_atSlot c _).clear
  | stale | hole => exact .clear trivial

end RingConsumer

end Ringfire
