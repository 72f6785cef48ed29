import Ringfire.Ring.View

/-!
# The consumer of the Python client

`RingConsumer` of `ring.py` reads the rings that the Rust producers write, without a registry slot
and with a loop of its own. A slot is read as `read_slot` reads it: the word, the payload, the
word again. What differs is what happens around it: a stale slot is given up only after a look at
`write_seq`, on every kind of ring; a call that ends without a message returns what it skipped;
and `seek` sets the cursor wherever it is told to.

Python's integers have no width, so a cursor never overflows. `returned` records the results of
`recv_status`, also those that `try_recv` and `recv_batch` make in between; `sought` is what
attaching and `seek` added to `lapped_count`.

## Main definitions

* `Python.RingConsumer.step`: one memory access, or the start of a call
* `Python.RingConsumer.attach`: `__init__`, once the ring is mapped
* `Python.RingConsumer.Moves`: the steps, one constructor for each access and outcome

## Main results

* `Python.RingConsumer.step_moves`: there are no other steps
* `Python.RingConsumer.step_effect`: what a step does to the cursor
-/

namespace Ringfire

namespace Python

/-- What `recv_status` returns: the status, the message if there is one, and the count. -/
inductive RecvStatus (τ : Type) where
  | ok (item : τ)
  | empty (skipped : ℕ)
  | lapped (item : τ) (skipped : ℕ)
  deriving DecidableEq

/-- The count of a result. -/
def RecvStatus.skipped {τ : Type} : RecvStatus τ → ℕ
  | .ok _ => 0
  | .empty skipped => skipped
  | .lapped _ skipped => skipped

/-- The message of a result. -/
def RecvStatus.item? {τ : Type} : RecvStatus τ → Option τ
  | .ok item | .lapped item _ => some item
  | .empty _ => none

/-- The receive call in progress: `recv_status`, which is also `try_recv`, or `recv_batch` with
the number of messages it may still take. -/
inductive Receive where
  | status
  | batch (room : ℕ)
  deriving DecidableEq

/-- The calls of a consumer. -/
inductive ConsumerCall where
  | recvStatus
  | recvBatch (maxCount : ℕ)
  | seek (targetSeq : ℤ)
  deriving DecidableEq

/-- A consumer's step: the start of a call, a payload word, or whatever comes next. -/
inductive ConsumerLabel (w : ℕ) where
  | call (c : ConsumerCall)
  | word (i : Fin w)
  | tick

/-- Where a consumer stands. `skipped` is the local count of `recv_status`. -/
inductive ConsumerPc (w : ℕ) (ω : Type) where
  | idle
  | reading (call : Receive) (skipped : ℕ) (rd : ReadPc w ω)
  | staleLoad (call : Receive) (skipped : ℕ)
  | skipLoad (call : Receive) (skipped seen : ℕ)
  | seekLoad (targetSeq : ℤ)

/-- The consumer's own state. -/
structure RingConsumer (w : ℕ) (ω : Type) extends Account (Payload w ω) where
  sought : ℕ
  pc : ConsumerPc w ω
  returned : List (RecvStatus (Payload w ω))

/-- The argument `start_mode` of `__init__`, with the `start_seq` given beside it. -/
inductive StartMode where
  | latest
  | head
  | sequence (startSeq : Option ℤ)
  | oldest
  | unknown
  deriving DecidableEq

/-- The cursor and the lapped count that follow from asking for `target`. -/
def clampStart (oldest target : ℕ) : ℕ × ℕ :=
  if target < oldest then (oldest, oldest - target) else (target, 0)

/-- The cursor and the lapped count `__init__` starts with, when `write_seq` was loaded and
`saved_seq` read from the offset file; `none` is a `ValueError`. -/
def startPosition (cap : Capacity) (writeSeq : ℕ) (savedSeq : Option ℕ) (mode : StartMode) :
    Option (ℕ × ℕ) :=
  -- a sequence of zero in the offset file means that nothing was committed
  match savedSeq.filter (0 < ·) with
  | some saved => some (clampStart (oldestRetained writeSeq cap.val) (saved + 1))
  | none =>
    match mode with
    | .latest => some (if 0 < writeSeq then writeSeq else 1, 0)
    | .head => some (writeSeq + 1, 0)
    | .sequence none => none
    | .sequence (some startSeq) =>
      some (clampStart (oldestRetained writeSeq cap.val) (max 1 startSeq).toNat)
    | .oldest => some (oldestRetained writeSeq cap.val, 0)
    | .unknown => none

theorem one_le_toNat (target : ℤ) : 1 ≤ (max 1 target).toNat := by omega

theorem one_le_clampStart {oldest target : ℕ} (h : 1 ≤ target) :
    1 ≤ (clampStart oldest target).1 := by
  unfold clampStart
  split_ifs <;> dsimp only <;> omega

theorem one_le_startPosition {cap : Capacity} {writeSeq : ℕ} {savedSeq : Option ℕ}
    {mode : StartMode} {start : ℕ × ℕ} (h : startPosition cap writeSeq savedSeq mode = some start) :
    1 ≤ start.1 := by
  unfold startPosition at h
  split at h
  · cases h
    exact one_le_clampStart (Nat.le_add_left 1 _)
  · split at h <;> cases h
    · dsimp only
      split_ifs <;> omega
    · exact Nat.le_add_left 1 _
    · exact one_le_clampStart (one_le_toNat _)
    · exact one_le_oldestRetained _ _

namespace RingConsumer

variable {w : ℕ} {ω : Type}

/-- A consumer as `__init__` leaves it. -/
def attach (start : ℕ × ℕ) : RingConsumer w ω where
  cursor := start.1
  lappedTotal := start.2
  delivered := []
  lapped := []
  jumped := []
  sought := start.2
  pc := .idle
  returned := []

/-- `last_processed_sequence`, and what `commit_offset` stores. -/
def lastProcessedSequence (c : RingConsumer w ω) : ℕ := c.cursor - 1

/-- The start of a call. -/
def start (c : RingConsumer w ω) : ConsumerCall → RingConsumer w ω
  | .recvStatus => { c with pc := .reading .status 0 .load }
  | .recvBatch 0 => c
  | .recvBatch (maxCount + 1) => { c with pc := .reading (.batch maxCount) 0 .load }
  | .seek targetSeq => { c with pc := .seekLoad targetSeq }

/-- `recv_status` returns `EMPTY`, and so does the call it was made for. -/
def giveUp (c : RingConsumer w ω) (skipped : ℕ) : RingConsumer w ω :=
  { c with pc := .idle, returned := c.returned ++ [.empty skipped] }

/-- The result of `recv_status` with a message. -/
def statusOf (item : Payload w ω) (skipped : ℕ) : RecvStatus (Payload w ω) :=
  if skipped = 0 then .ok item else .lapped item skipped

/-- Where a call goes on after a message. -/
def resumePc : Receive → ConsumerPc w ω
  | .status | .batch 0 => .idle
  | .batch (room + 1) => .reading (.batch room) 0 .load

/-- `recv_status` returns a message. -/
def deliver (c : RingConsumer w ω) (call : Receive) (skipped : ℕ) (item : Payload w ω) :
    RingConsumer w ω :=
  { c with
    toAccount := c.toAccount.deliver item
    pc := resumePc call
    returned := c.returned ++ [statusOf item skipped] }

/-- `_skip_overwritten(seen)` once `write_seq` is loaded, and where `recv_status` goes on. -/
def skipOverwritten (cap : Capacity) (writeSeq : ℕ) (c : RingConsumer w ω) (call : Receive)
    (skipped seen : ℕ) : RingConsumer w ω :=
  if c.cursor < oldestRetained (max writeSeq seen) cap.val then
    { c with
      toAccount := c.toAccount.lap (oldestRetained (max writeSeq seen) cap.val)
      pc := .reading call (skipped + (oldestRetained (max writeSeq seen) cap.val - c.cursor)) .load }
  else c.giveUp skipped

/-- `recv_status` once the slot was read. -/
def afterRead (c : RingConsumer w ω) (call : Receive) (skipped : ℕ) :
    SlotRead (Payload w ω) → RingConsumer w ω
  | .item item => c.deliver call skipped item
  | .overwritten seen => { c with pc := .skipLoad call skipped seen }
  | .pending => { c with pc := .staleLoad call skipped }

/-- `seek` once `write_seq` is loaded. -/
def seekTo (cap : Capacity) (writeSeq : ℕ) (c : RingConsumer w ω) (targetSeq : ℤ) :
    RingConsumer w ω :=
  if (max 1 targetSeq).toNat < oldestRetained writeSeq cap.val then
    { c with
      cursor := oldestRetained writeSeq cap.val
      lappedTotal := c.lappedTotal + (oldestRetained writeSeq cap.val - (max 1 targetSeq).toNat)
      sought := c.sought + (oldestRetained writeSeq cap.val - (max 1 targetSeq).toNat)
      pc := .idle }
  else { c with cursor := (max 1 targetSeq).toNat, pc := .idle }

/-- One memory access of the consumer. -/
def step [Inhabited ω] (cap : Capacity) (slots : ℕ → Slot w ω) (writeSeq : ℕ)
    (c : RingConsumer w ω) (a : ConsumerLabel w) : Option (RingConsumer w ω) :=
  match c.pc, a with
  | .idle, .call call => some (c.start call)
  -- the sequence, the words in any order, the sequence again
  | .reading call skipped rd, .word i =>
    match rd.step (slots (slotIndex cap c.cursor)) c.cursor (some i) with
    | some rd' => some { c with pc := .reading call skipped rd' }
    | none => none
  | .reading call skipped rd, .tick =>
    match rd.step (slots (slotIndex cap c.cursor)) c.cursor none with
    | some (.done r) => some (c.afterRead call skipped r)
    | some rd' => some { c with pc := .reading call skipped rd' }
    | none => none
  -- a producer a full ring ahead: the message is gone
  | .staleLoad call skipped, .tick =>
    if c.cursor + cap.val ≤ writeSeq then some { c with pc := .skipLoad call skipped 0 }
    else some (c.giveUp skipped)
  | .skipLoad call skipped seen, .tick => some (c.skipOverwritten cap writeSeq call skipped seen)
  | .seekLoad targetSeq, .tick => some (c.seekTo cap writeSeq targetSeq)
  | _, _ => none

/-! ## The steps there are -/

/-- What a step is, one case for each memory access of the source and what it leads to. -/
inductive Moves [Inhabited ω] (cap : Capacity) (slots : ℕ → Slot w ω) (writeSeq : ℕ)
    (c : RingConsumer w ω) : ConsumerLabel w → RingConsumer w ω → Prop where
  | call (call : ConsumerCall) (pc : c.pc = .idle) :
      Moves cap slots writeSeq c (.call call) (c.start call)
  | word (call : Receive) (skipped : ℕ) (rd rd' : ReadPc w ω) (i : Fin w)
      (pc : c.pc = .reading call skipped rd)
      (read : rd.step (slots (slotIndex cap c.cursor)) c.cursor (some i) = some rd') :
      Moves cap slots writeSeq c (.word i) { c with pc := .reading call skipped rd' }
  | load (call : Receive) (skipped : ℕ) (rd rd' : ReadPc w ω) (pc : c.pc = .reading call skipped rd)
      (read : rd.step (slots (slotIndex cap c.cursor)) c.cursor none = some rd') :
      Moves cap slots writeSeq c .tick { c with pc := .reading call skipped rd' }
  | done (call : Receive) (skipped : ℕ) (rd : ReadPc w ω) (r : SlotRead (Payload w ω))
      (pc : c.pc = .reading call skipped rd)
      (read : rd.step (slots (slotIndex cap c.cursor)) c.cursor none = some (.done r)) :
      Moves cap slots writeSeq c .tick (c.afterRead call skipped r)
  | stale (call : Receive) (skipped : ℕ) (pc : c.pc = .staleLoad call skipped)
      (ahead : c.cursor + cap.val ≤ writeSeq) :
      Moves cap slots writeSeq c .tick { c with pc := .skipLoad call skipped 0 }
  | waits (call : Receive) (skipped : ℕ) (pc : c.pc = .staleLoad call skipped)
      (behind : writeSeq < c.cursor + cap.val) :
      Moves cap slots writeSeq c .tick (c.giveUp skipped)
  | skip (call : Receive) (skipped seen : ℕ) (pc : c.pc = .skipLoad call skipped seen) :
      Moves cap slots writeSeq c .tick (c.skipOverwritten cap writeSeq call skipped seen)
  | seek (targetSeq : ℤ) (pc : c.pc = .seekLoad targetSeq) :
      Moves cap slots writeSeq c .tick (c.seekTo cap writeSeq targetSeq)

theorem step_moves [Inhabited ω] {cap : Capacity} {slots : ℕ → Slot w ω} {writeSeq : ℕ}
    {c c' : RingConsumer w ω} {a : ConsumerLabel w} (h : c.step cap slots writeSeq a = some c') :
    Moves cap slots writeSeq c a c' := by
  unfold step at h
  split at h
  case h_1 call hpc =>
    cases h
    exact .call call hpc
  -- the slot: a payload word, or one of the loads of the sequence
  case h_2 call skipped rd i hpc =>
    split at h <;> cases h
    next rd' hr => exact .word call skipped rd rd' i hpc hr
  case h_3 call skipped rd hpc =>
    split at h
    case h_1 r hr =>
      cases h
      exact .done call skipped rd r hpc hr
    case h_2 rd' _ hr =>
      cases h
      exact .load call skipped rd rd' hpc hr
    case h_3 => cases h
  -- the looks at `write_seq`
  case h_4 call skipped hpc =>
    split_ifs at h with hahead <;> cases h
    · exact .stale call skipped hpc hahead
    · exact .waits call skipped hpc (Nat.not_le.mp hahead)
  case h_5 call skipped seen hpc =>
    cases h
    exact .skip call skipped seen hpc
  case h_6 targetSeq hpc =>
    cases h
    exact .seek targetSeq hpc
  case h_7 => cases h

/-! ## What a step does to the cursor -/

/-- The moves a consumer's step can make. -/
inductive Effect [Inhabited ω] (cap : Capacity) (slots : ℕ → Slot w ω) (writeSeq : ℕ)
    (c c' : RingConsumer w ω) : Prop where
  | stay (account : c'.toAccount = c.toAccount)
  | deliver (call : Receive) (skipped : ℕ) (rd : ReadPc w ω) (item : Payload w ω)
      (pc : c.pc = .reading call skipped rd)
      (read : rd.step (slots (slotIndex cap c.cursor)) c.cursor none = some (.done (.item item)))
      (account : c'.toAccount = c.toAccount.deliver item)
  | lap (call : Receive) (skipped seen : ℕ) (pc : c.pc = .skipLoad call skipped seen)
      (lt : c.cursor < oldestRetained (max writeSeq seen) cap.val)
      (account : c'.toAccount = c.toAccount.lap (oldestRetained (max writeSeq seen) cap.val))
  | seek (targetSeq : ℤ) (pc : c.pc = .seekLoad targetSeq)
      (result : c' = c.seekTo cap writeSeq targetSeq)

@[simp] theorem start_account (c : RingConsumer w ω) (call : ConsumerCall) :
    (c.start call).toAccount = c.toAccount := by
  unfold start
  split <;> rfl

/-- **What one step does to the cursor**: nothing, or it returns the message of the slot just
read, counts a range as lapped, or goes where `seek` was told to. -/
theorem step_effect [Inhabited ω] {cap : Capacity} {slots : ℕ → Slot w ω} {writeSeq : ℕ}
    {c c' : RingConsumer w ω} {a : ConsumerLabel w} (h : c.step cap slots writeSeq a = some c') :
    Effect cap slots writeSeq c c' := by
  cases step_moves h with
  | call call => exact .stay (start_account c call)
  | done call skipped rd r hpc hr =>
    cases r with
    | item item => exact .deliver call skipped rd item hpc hr rfl
    | pending | overwritten => exact .stay rfl
  | skip call skipped seen hpc =>
    unfold skipOverwritten
    split_ifs with hlt
    · exact .lap call skipped seen hpc hlt rfl
    · exact .stay rfl
  | seek targetSeq hpc => exact .seek targetSeq hpc rfl
  | word | load | stale | waits => exact .stay rfl

/-- A cursor never points in front of the first message. -/
theorem one_le_of_step [Inhabited ω] {cap : Capacity} {slots : ℕ → Slot w ω} {writeSeq : ℕ}
    {c c' : RingConsumer w ω} {a : ConsumerLabel w} (hpos : 1 ≤ c.cursor)
    (h : c.step cap slots writeSeq a = some c') : 1 ≤ c'.cursor := by
  cases step_effect h with
  | stay account => exact account ▸ hpos
  | deliver call skipped rd item pc read account =>
    rw [account]
    exact Nat.le_add_left 1 _
  | lap call skipped seen pc lt account =>
    rw [account]
    exact one_le_oldestRetained _ _
  | seek targetSeq pc result =>
    subst result
    unfold seekTo
    split_ifs
    · exact one_le_oldestRetained _ _
    · exact one_le_toNat targetSeq

/-- A consumer does not look for a position unless it was told to seek. -/
def Seeking (c : RingConsumer w ω) : Prop := ∃ targetSeq, c.pc = .seekLoad targetSeq

/-- Only a call of `seek` makes a consumer seek. -/
theorem step_seeking [Inhabited ω] {cap : Capacity} {slots : ℕ → Slot w ω} {writeSeq : ℕ}
    {c c' : RingConsumer w ω} {a : ConsumerLabel w} (ha : ∀ targetSeq, a ≠ .call (.seek targetSeq))
    (h : c.step cap slots writeSeq a = some c') : ¬ c'.Seeking := by
  rintro ⟨targetSeq, hpc'⟩
  cases step_moves h with
  | call call hpc =>
    cases call with
    | recvStatus => cases hpc'
    | recvBatch maxCount =>
      cases maxCount with
      | zero => exact absurd (hpc.symm.trans hpc') (by rintro ⟨⟩)
      | succ => cases hpc'
    | seek target => exact ha target rfl
  | done call skipped rd r hpc hr =>
    cases r with
    | item item =>
      cases call with
      | status => cases hpc'
      | batch room => cases room <;> cases hpc'
    | pending | overwritten => cases hpc'
  | skip call skipped seen hpc =>
    unfold skipOverwritten at hpc'
    split_ifs at hpc'
    cases hpc'
  | seek target hpc =>
    unfold seekTo at hpc'
    split_ifs at hpc'
  | word | load | stale | waits => cases hpc'

/-! ## What the results report -/

/-- What the call in progress has skipped. -/
def skippedNow (c : RingConsumer w ω) : ℕ :=
  match c.pc with
  | .reading _ skipped _ | .staleLoad _ skipped | .skipLoad _ skipped _ => skipped
  | .idle | .seekLoad _ => 0

/-- The results report everything: `lapped_count` is what they add up to, what the call in
progress has skipped, and what was passed by attaching and seeking; and their messages are those
delivered, in order. -/
structure Reported (c : RingConsumer w ω) : Prop where
  count : c.lappedTotal = c.sought + (c.returned.map RecvStatus.skipped).sum + c.skippedNow
  items : c.returned.filterMap RecvStatus.item? = c.delivered.map Prod.snd

theorem skipped_statusOf (item : Payload w ω) (skipped : ℕ) :
    (statusOf item skipped).skipped = skipped := by
  unfold statusOf
  split_ifs with h
  · exact h.symm
  · rfl

theorem item_statusOf (item : Payload w ω) (skipped : ℕ) :
    (statusOf item skipped).item? = some item := by
  unfold statusOf
  split_ifs <;> rfl

variable {c c' : RingConsumer w ω}

/-- Going on with the same count reports nothing new. -/
theorem Reported.move (h : c.Reported) {pc : ConsumerPc w ω}
    (hs : RingConsumer.skippedNow { c with pc := pc } = c.skippedNow) :
    RingConsumer.Reported { c with pc := pc } :=
  ⟨by rw [hs]; exact h.count, h.items⟩

theorem Reported.giveUp (h : c.Reported) : (c.giveUp c.skippedNow).Reported where
  count := by
    have hcount := h.count
    simp only [RingConsumer.giveUp, skippedNow, List.map_append, List.sum_append, List.map_cons,
      List.map_nil, List.sum_singleton, RecvStatus.skipped] at hcount ⊢
    omega
  items := by
    rw [RingConsumer.giveUp, List.filterMap_append, h.items]
    exact List.append_nil _

theorem Reported.deliver (h : c.Reported) (call : Receive) (item : Payload w ω) :
    (c.deliver call c.skippedNow item).Reported where
  count := by
    have hresume : (c.deliver call c.skippedNow item).skippedNow = 0 := by
      cases call with
      | status => rfl
      | batch room => cases room <;> rfl
    have hcount := h.count
    rw [hresume]
    simp only [RingConsumer.deliver, Account.deliver, List.map_append, List.sum_append,
      List.map_cons, List.map_nil, List.sum_singleton, skipped_statusOf]
    omega
  items := by
    have hitem : [statusOf item c.skippedNow].filterMap RecvStatus.item? = [item] := by
      rw [List.filterMap_cons_some (item_statusOf item c.skippedNow), List.filterMap_nil]
    rw [RingConsumer.deliver, List.filterMap_append, h.items, hitem]
    simp only [Account.deliver, List.map_append, List.map_cons, List.map_nil]

theorem Reported.lap (h : c.Reported) (call : Receive) (target : ℕ) :
    RingConsumer.Reported { c with
      toAccount := c.toAccount.lap target
      pc := .reading call (c.skippedNow + (target - c.cursor)) .load } where
  count := by
    have hcount := h.count
    simp only [Account.lap, skippedNow] at hcount ⊢
    omega
  items := h.items

/-- **Every step keeps the results complete.** -/
theorem Reported.step [Inhabited ω] {cap : Capacity} {slots : ℕ → Slot w ω} {writeSeq : ℕ}
    {a : ConsumerLabel w} (hc : c.Reported) (h : c.step cap slots writeSeq a = some c') :
    c'.Reported := by
  cases step_moves h with
  | call call hpc =>
    have hzero : c.skippedNow = 0 := by simp only [skippedNow, hpc]
    cases call with
    | recvStatus | seek => exact hc.move hzero.symm
    | recvBatch maxCount =>
      cases maxCount with
      | zero => exact hc
      | succ => exact hc.move hzero.symm
  | word call skipped rd rd' i hpc | load call skipped rd rd' hpc | stale call skipped hpc =>
    exact hc.move (by simp only [skippedNow, hpc])
  | done call skipped rd r hpc hr =>
    obtain rfl : c.skippedNow = skipped := by simp only [skippedNow, hpc]
    cases r with
    | item item => exact hc.deliver call item
    | pending | overwritten => exact hc.move rfl
  | waits call skipped hpc =>
    obtain rfl : c.skippedNow = skipped := by simp only [skippedNow, hpc]
    exact hc.giveUp
  | skip call skipped seen hpc =>
    obtain rfl : c.skippedNow = skipped := by simp only [skippedNow, hpc]
    unfold skipOverwritten
    split_ifs with hlt
    · exact hc.lap call _
    · exact hc.giveUp
  | seek targetSeq hpc =>
    have hcount := hc.count
    have hs : c.skippedNow = 0 := by simp only [skippedNow, hpc]
    rw [hs] at hcount
    unfold seekTo
    split_ifs
    · refine ⟨?_, hc.items⟩
      simp only [skippedNow]
      omega
    · exact ⟨hcount, hc.items⟩

/-- The results of earlier calls stay, and only `seek` passes anything besides them. -/
theorem step_returned [Inhabited ω] {cap : Capacity} {slots : ℕ → Slot w ω} {writeSeq : ℕ}
    {a : ConsumerLabel w} (hseek : ¬ c.Seeking) (h : c.step cap slots writeSeq a = some c') :
    c'.sought = c.sought ∧ c.returned <+: c'.returned := by
  cases step_moves h with
  | call call =>
    cases call with
    | recvStatus | seek => exact ⟨rfl, List.prefix_rfl⟩
    | recvBatch maxCount => cases maxCount <;> exact ⟨rfl, List.prefix_rfl⟩
  | done call skipped rd r hpc hr =>
    cases r with
    | item item => exact ⟨rfl, List.prefix_append _ _⟩
    | pending | overwritten => exact ⟨rfl, List.prefix_rfl⟩
  | waits => exact ⟨rfl, List.prefix_append _ _⟩
  | skip call skipped seen =>
    unfold skipOverwritten
    split_ifs
    · exact ⟨rfl, List.prefix_rfl⟩
    · exact ⟨rfl, List.prefix_append _ _⟩
  | seek targetSeq hpc => exact absurd ⟨targetSeq, hpc⟩ hseek
  | word | load | stale => exact ⟨rfl, List.prefix_rfl⟩

end RingConsumer

end Python

end Ringfire
