import Ringfire.Blob.Channel
import Ringfire.Blob.Receiver
import Ringfire.Ring.Report
import Ringfire.Ring.System

/-!
# The calls of a blob consumer

`BlobConsumer` as its callers see it: on top of the memory accesses of `next_blob`, the status that
`recv_status` returns and the cursor stored in the registry. `update_cursor` is called after
`skip_hole` and when a blob is returned, and nowhere else; `skip_overwritten` and `skip_current` of
`blob.rs` do not call it, where `skip_overwritten` of `spmc.rs` does.

A reader sees some memory at each of its steps, as in `RingConsumer.observe`.

## Main definitions

* `BlobClient.step`: one memory access; the second component is the value stored in the registry
* `BlobClient.EndsEmpty`: the call ends without a message

## Main results

* `BlobClient.step_moves`: what one memory access does
* `BlobClient.reportedBlobs_iff`: the statuses add up to `lapped_count` as long as no call skips and
  then ends without a message
* `recvStatus_reports_iff`: the same of both consumers
-/

namespace Ringfire

open PayloadArena

variable {w : ℕ} {ω : Type}

/-- The messages a result of `recv_status` reports as skipped. -/
def skippedBlobs : Except RingfireError BlobRecvStatus → ℕ
  | .ok (.lapped skipped _) => skipped
  | .ok (.ok _) | .ok .empty | .error _ => 0

/-- What the results of a blob consumer add up to. -/
def reportedBlobs (returned : List (Except RingfireError BlobRecvStatus)) : ℕ :=
  (returned.map skippedBlobs).sum

/-- What a blob consumer's step sees and does. -/
structure BlobSight (w : ℕ) (ω : Type) where
  mem : BlobMemory w ω
  label : ReceiverLabel w

/-- A blob consumer with the results of its calls. -/
structure BlobClient (w : ℕ) (ω : Type) extends BlobReceiver w ω where
  registered : Bool
  /-- `update_cursor` is the next memory access. -/
  storing : Bool
  /-- The sequences the cursor has passed since it was stored last. -/
  unstored : ℕ
  returned : List (Except RingfireError BlobRecvStatus)

/-- The buffer and the count of the call in progress. -/
def ReceiverPc.call : ReceiverPc w ω → Option (Option ℕ × ℕ)
  | .idle => none
  | .reading room skipped _ | .lapCheck room skipped _ | .view room skipped _ _
  | .skipLoad room skipped _ | .hole room skipped _ => some (room, skipped)

namespace BlobClient

/-- A blob consumer as `attach_with_name` returns it. -/
def attach (sparse registered : Bool) (cursor : ℕ) : BlobClient w ω where
  toBlobReceiver := .attach sparse cursor 0
  registered := registered
  storing := false
  unstored := 0
  returned := []

/-- The status reported with a blob. -/
def statusOf (skipped payloadLen : ℕ) : BlobRecvStatus :=
  if 0 < skipped then .lapped skipped payloadLen else .ok payloadLen

/-- The call returns. Only `recv_status` comes with a buffer, and only it returns a status. -/
def ret (c : BlobClient w ω) (r : BlobReceiver w ω) (room : Option ℕ)
    (status : Except RingfireError BlobRecvStatus) : BlobClient w ω :=
  { c with
    toBlobReceiver := r
    returned := if room.isSome then c.returned ++ [status] else c.returned }

/-- What becomes of the reader when its memory access leads to `r`. -/
def after (ref : Payload w ω → BlobRef) (c : BlobClient w ω) (r : BlobReceiver w ω) :
    BlobClient w ω :=
  match c.pc, r.pc with
  | .idle, _ => { c with toBlobReceiver := r }
  -- the blob is returned: `update_cursor` follows
  | .view room skipped packet _, .idle =>
    { c.ret r room (.ok (statusOf skipped (ref packet).len)) with
      storing := c.registered, unstored := c.unstored + (r.cursor - c.cursor) }
  | .lapCheck room _ packet, .idle =>
    c.ret r room (.error (.bufferTooSmall (ref packet).len (room.getD 0)))
  | .reading room _ _, .idle | .skipLoad room _ _, .idle | .hole room _ _, .idle =>
    c.ret r room (.ok .empty)
  -- the end of `skip_hole`: `update_cursor` follows
  | .hole _ _ _, .reading _ _ _ =>
    { c with
      toBlobReceiver := r
      storing := c.registered, unstored := c.unstored + (r.cursor - c.cursor) }
  | _, _ => { c with toBlobReceiver := r, unstored := c.unstored + (r.cursor - c.cursor) }

/-- One memory access of a blob consumer. -/
def step [Inhabited ω] (cap : Capacity) (acap : ArenaCapacity) (ref : Payload w ω → BlobRef)
    (c : BlobClient w ω) (a : BlobSight w ω) : Option (BlobClient w ω × Option ℕ) :=
  if c.storing then
    match a.label with
    | .tick => some ({ c with storing := false, unstored := 0 }, some c.cursor)
    | _ => none
  else (c.toBlobReceiver.step cap acap ref a.mem a.label).map fun r => (c.after ref r, none)

/-- One memory access of a blob consumer, without the value it stores. -/
def observe [Inhabited ω] (cap : Capacity) (acap : ArenaCapacity) (ref : Payload w ω → BlobRef)
    (c : BlobClient w ω) (a : BlobSight w ω) : Option (BlobClient w ω) :=
  (c.step cap acap ref a).map Prod.fst

/-- The local count of `next_blob`. -/
def skippedNow (c : BlobClient w ω) : ℕ :=
  match c.pc with
  | .idle => 0
  | .reading _ skipped _ | .lapCheck _ skipped _ | .view _ skipped _ _ | .skipLoad _ skipped _
  | .hole _ skipped _ => skipped

/-- The next memory access ends `next_blob` without a message. -/
def EndsEmpty [Inhabited ω] (cap : Capacity) (acap : ArenaCapacity) (ref : Payload w ω → BlobRef)
    (c : BlobClient w ω) (a : BlobSight w ω) : Prop :=
  c.storing = false ∧ a.label = .tick ∧
    match c.pc with
    | .idle | .view _ _ _ _ => False
    -- the slot is stale, and nothing else is tried
    | .reading _ _ rd =>
      rd.step (a.mem.slots (slotIndex cap c.cursor)) c.cursor none = some (.done .pending) ∧
        (c.sparse = true → (c.emptyPolls + 1) % 2 ^ 32 &&& 63 ≠ 0)
    -- the buffer is too small
    | .lapCheck room _ packet =>
      isLapped acap a.mem.arena.reserved (ref packet) = false ∧
        BlobReceiver.accepts room (ref packet).len = false
    | .skipLoad _ _ seen => oldestRetained (max a.mem.writeSeq seen) cap.val ≤ c.cursor
    | .hole _ _ pc =>
      pc.step cap (fun i => (a.mem.slots i).seq) a.mem.writeSeq c.cursor = .stay

/-- The call ends without a message although it has skipped some. -/
def DropsCount [Inhabited ω] (cap : Capacity) (acap : ArenaCapacity) (ref : Payload w ω → BlobRef)
    (c : BlobClient w ω) (a : BlobSight w ω) : Prop :=
  c.EndsEmpty cap acap ref a ∧ 0 < c.skippedNow

/-- The consumer is in no call but `recv_status`. -/
def InStatus (c : BlobClient w ω) : Prop :=
  match c.pc with
  | .idle => True
  | .reading room _ _ | .lapCheck room _ _ | .view room _ _ _ | .skipLoad room _ _
  | .hole room _ _ => room.isSome = true

/-- What `lapped_count` has counted and no status has told, nor will the call in progress. -/
def unreported (c : BlobClient w ω) : ℤ :=
  c.lappedTotal - reportedBlobs c.returned - c.skippedNow

variable {cap : Capacity} {acap : ArenaCapacity} {ref : Payload w ω → BlobRef}
  {c c' : BlobClient w ω} {r : BlobReceiver w ω} {a : BlobSight w ω}

/-- What one memory access does to the count: only a call that ends empty loses any of it. -/
structure Counted [Inhabited ω] (cap : Capacity) (acap : ArenaCapacity)
    (ref : Payload w ω → BlobRef) (c c' : BlobClient w ω) (a : BlobSight w ω) : Prop where
  inStatus : c'.InStatus
  ends : c.EndsEmpty cap acap ref a → c'.unreported = c.unreported + c.skippedNow
  goes : ¬ c.EndsEmpty cap acap ref a → c'.unreported = c.unreported

theorem reportedBlobs_append (returned : List (Except RingfireError BlobRecvStatus))
    (x : Except RingfireError BlobRecvStatus) :
    reportedBlobs (returned ++ [x]) = reportedBlobs returned + skippedBlobs x := by
  simp [reportedBlobs]

theorem skippedBlobs_statusOf (skipped payloadLen : ℕ) :
    skippedBlobs (.ok (statusOf skipped payloadLen)) = skipped := by
  unfold statusOf
  split_ifs with h
  · rfl
  · exact (Nat.eq_zero_of_not_pos h).symm

/-- What one memory access inside a call does to the results, and where it leads. -/
inductive MoveKind [Inhabited ω] (cap : Capacity) (acap : ArenaCapacity)
    (ref : Payload w ω → BlobRef) (c c' : BlobClient w ω) (a : BlobSight w ω) : Prop where
  /-- A call begins. -/
  | call (room : Option ℕ) (label : a.label = .call room) (old : c.pc = .idle)
      (new : c'.pc = .reading room 0 .load) (account : c'.toAccount = c.toAccount)
      (returned : c'.returned = c.returned)
  /-- The call goes on with the same message, or with the next load of a scan. -/
  | inside (room : Option ℕ) (skipped : ℕ) (goes : ¬ c.EndsEmpty cap acap ref a)
      (old : c.pc.call = some (room, skipped)) (new : c'.pc.call = some (room, skipped))
      (account : c'.toAccount = c.toAccount) (returned : c'.returned = c.returned)
      (scan : ∀ pc', c'.pc = .hole room skipped pc' → pc' = .load ∨
        ∃ pc, c.pc = .hole room skipped pc ∧
          pc.step cap (fun i => (a.mem.slots i).seq) a.mem.writeSeq c.cursor = .go pc')
  /-- The cursor passes on inside the call. -/
  | lap (room : Option ℕ) (skipped target : ℕ) (goes : ¬ c.EndsEmpty cap acap ref a)
      (old : c.pc.call = some (room, skipped))
      (le : c.cursor ≤ target ∨
        ∃ ws examined, c.pc = .hole room skipped (.scan ws target examined))
      (receiver : c'.toBlobReceiver = c.toBlobReceiver.lapTo room skipped target)
      (returned : c'.returned = c.returned)
  /-- The call returns a blob. -/
  | deliver (room : Option ℕ) (skipped payloadLen : ℕ) (goes : ¬ c.EndsEmpty cap acap ref a)
      (old : c.pc.call = some (room, skipped)) (idle : c'.pc = .idle)
      (storing : c'.storing = c.registered) (cursor : c'.cursor = c.cursor + 1)
      (lappedTotal : c'.lappedTotal = c.lappedTotal)
      (returned : c'.returned =
        if room.isSome then c.returned ++ [.ok (statusOf skipped payloadLen)] else c.returned)
  /-- The call returns without a blob. -/
  | endEmpty (room : Option ℕ) (skipped : ℕ) (x : Except RingfireError BlobRecvStatus)
      (ends : c.EndsEmpty cap acap ref a) (old : c.pc.call = some (room, skipped))
      (idle : c'.pc = .idle) (storing : c'.storing = false) (account : c'.toAccount = c.toAccount)
      (returned : c'.returned = if room.isSome then c.returned ++ [x] else c.returned)
      (told : skippedBlobs x = 0)

/-- What one memory access does, the store of the cursor apart. -/
structure Moves [Inhabited ω] (cap : Capacity) (acap : ArenaCapacity)
    (ref : Payload w ω → BlobRef) (c c' : BlobClient w ω) (a : BlobSight w ω) : Prop where
  registered : c'.registered = c.registered
  unstored : c'.unstored = c.unstored + (c'.cursor - c.cursor)
  kind : MoveKind cap acap ref c c' a

theorem skippedNow_of_call {room : Option ℕ} {skipped : ℕ}
    (h : c.pc.call = some (room, skipped)) : c.skippedNow = skipped := by
  unfold skippedNow
  cases hpc : c.pc <;> rw [hpc] at h <;> cases h <;> rfl

theorem inStatus_iff_of_call {room : Option ℕ} {skipped : ℕ}
    (h : c.pc.call = some (room, skipped)) : c.InStatus ↔ room.isSome = true := by
  unfold InStatus
  cases hpc : c.pc <;> rw [hpc] at h <;> cases h <;> rfl

/-- A call that returns without a blob leaves the cursor where it is. -/
theorem ret_unstored {room : Option ℕ} {x : Except RingfireError BlobRecvStatus}
    (hcursor : r.cursor = c.cursor) :
    (c.ret r room x).unstored = c.unstored + ((c.ret r room x).cursor - c.cursor) := by
  show c.unstored = c.unstored + (r.cursor - c.cursor)
  rw [hcursor, Nat.sub_self, Nat.add_zero]

/-- `next_blob` after `read_slot` returned. -/
theorem afterRead_moves [Inhabited ω] {room : Option ℕ} {skipped : ℕ} {rd : ReadPc w ω}
    {x : SlotRead (Payload w ω)} (hpc : c.pc = .reading room skipped rd)
    (hstoring : c.storing = false) (hlabel : a.label = .tick)
    (hrd : rd.step (a.mem.slots (slotIndex cap c.cursor)) c.cursor none = some (.done x))
    (h : c.toBlobReceiver.afterRead acap ref room skipped x = some r) :
    Moves cap acap ref c (c.after ref r) a := by
  have hold : c.pc.call = some (room, skipped) := by rw [hpc]; rfl
  have hends : c.EndsEmpty cap acap ref a ↔
      x = .pending ∧ (c.sparse = true → (c.emptyPolls + 1) % 2 ^ 32 &&& 63 ≠ 0) := by
    simp only [EndsEmpty, hpc, hlabel, hstoring, hrd, true_and, Option.some.injEq,
      ReadPc.done.injEq]
  cases x with
  | item packet =>
    have hno : ¬ c.EndsEmpty cap acap ref a := fun he => absurd (hends.mp he).1 (by rintro ⟨⟩)
    simp only [BlobReceiver.afterRead] at h
    split_ifs at h <;> cases h
    · -- a bogus descriptor is passed over
      simp only [after, hpc, BlobReceiver.lapTo]
      exact ⟨rfl, rfl, .lap room skipped (c.cursor + 1) hno hold (.inl (Nat.le_succ _)) rfl rfl⟩
    · simp only [after, hpc]
      exact ⟨rfl, rfl, .inside room skipped hno hold rfl rfl rfl (by rintro _ ⟨⟩)⟩
  | overwritten seen =>
    have hno : ¬ c.EndsEmpty cap acap ref a := fun he => absurd (hends.mp he).1 (by rintro ⟨⟩)
    cases h
    simp only [after, hpc]
    exact ⟨rfl, rfl, .inside room skipped hno hold rfl rfl rfl (by rintro _ ⟨⟩)⟩
  | pending =>
    simp only [BlobReceiver.afterRead] at h
    split_ifs at h with hsparse hpoll <;> cases h <;> simp only [after, hpc]
    · -- the 64th empty poll of a sparse ring looks for a hole
      have hno : ¬ c.EndsEmpty cap acap ref a := fun he => absurd hpoll ((hends.mp he).2 hsparse)
      refine ⟨rfl, rfl, .inside room skipped hno hold rfl rfl rfl ?_⟩
      rintro _ ⟨⟩
      exact .inl rfl
    · exact ⟨rfl, ret_unstored rfl, .endEmpty room skipped _
        (hends.mpr ⟨rfl, fun _ => hpoll⟩) hold rfl hstoring rfl rfl rfl⟩
    · exact ⟨rfl, ret_unstored rfl, .endEmpty room skipped _
        (hends.mpr ⟨rfl, fun hs => absurd hs hsparse⟩) hold rfl hstoring rfl rfl rfl⟩

/-- `next_blob` after an access of the copy. -/
theorem afterView_moves [Inhabited ω] {room : Option ℕ} {skipped : ℕ} {packet : Payload w ω}
    {rd rd' : BlobReadPc UInt8} (hpc : c.pc = .view room skipped packet rd) :
    Moves cap acap ref c
      (c.after ref (c.toBlobReceiver.afterView ref room skipped packet rd')) a := by
  have hold : c.pc.call = some (room, skipped) := by rw [hpc]; rfl
  have hno : ¬ c.EndsEmpty cap acap ref a := by
    simp only [EndsEmpty, hpc, and_false, not_false_eq_true]
  cases rd' with
  | copy left buf =>
    simp only [after, hpc, BlobReceiver.afterView]
    exact ⟨rfl, rfl, .inside room skipped hno hold rfl rfl rfl (by rintro _ ⟨⟩)⟩
  | done lapped buf =>
    cases lapped with
    | true =>
      simp only [after, hpc, BlobReceiver.afterView, BlobReceiver.lapTo]
      exact ⟨rfl, rfl, .lap room skipped (c.cursor + 1) hno hold (.inl (Nat.le_succ _)) rfl rfl⟩
    | false =>
      simp only [after, hpc, BlobReceiver.afterView]
      exact ⟨rfl, rfl, .deliver room skipped _ hno hold rfl rfl rfl rfl rfl⟩

/-- **What one memory access does** to the results, to the cursor and to the count. -/
theorem step_moves [Inhabited ω] (hstoring : c.storing = false)
    (h : c.toBlobReceiver.step cap acap ref a.mem a.label = some r) :
    Moves cap acap ref c (c.after ref r) a := by
  obtain ⟨mem, label⟩ := a
  dsimp only at h
  unfold BlobReceiver.step at h
  split at h
  case h_1 room hpc =>
    cases h
    simp only [after, hpc]
    exact ⟨rfl, by rw [Nat.sub_self]; rfl, .call room rfl hpc rfl rfl rfl⟩
  -- `read_slot` on the descriptor
  case h_2 room skipped rd i hpc =>
    obtain ⟨rd', -, rfl⟩ := Option.map_eq_some_iff.mp h
    simp only [after, hpc]
    exact ⟨rfl, rfl, .inside room skipped (fun he => absurd he.2.1 (by rintro ⟨⟩))
      (by rw [hpc]; rfl) rfl rfl rfl (by rintro _ ⟨⟩)⟩
  case h_3 room skipped rd hpc =>
    split at h
    · next x hrd => exact afterRead_moves hpc hstoring rfl hrd h
    · next rd' hne hrd =>
      cases h
      simp only [after, hpc]
      refine ⟨rfl, rfl, .inside room skipped (fun he => ?_) (by rw [hpc]; rfl) rfl rfl rfl
        (by rintro _ ⟨⟩)⟩
      simp only [EndsEmpty, hpc] at he
      exact hne _ (Option.some.inj (hrd.symm.trans he.2.2.1))
    · cases h
  -- the payload
  case h_4 room skipped packet hpc =>
    have hold : c.pc.call = some (room, skipped) := by rw [hpc]; rfl
    have hends : c.EndsEmpty cap acap ref ⟨mem, .tick⟩ ↔
        isLapped acap mem.arena.reserved (ref packet) = false ∧
          BlobReceiver.accepts room (ref packet).len = false := by
      simp only [EndsEmpty, hpc, hstoring, true_and]
    split_ifs at h with hlapped hsmall <;> cases h
    · simp only [after, hpc, BlobReceiver.lapTo]
      refine ⟨rfl, rfl, .lap room skipped (c.cursor + 1) (fun he => ?_) hold
        (.inl (Nat.le_succ _)) rfl rfl⟩
      rw [(hends.mp he).1] at hlapped
      cases hlapped
    · -- the buffer is too small
      simp only [after, hpc]
      exact ⟨rfl, ret_unstored rfl, .endEmpty room skipped _
        (hends.mpr ⟨Bool.not_eq_true _ ▸ hlapped, hsmall⟩) hold rfl hstoring rfl rfl rfl⟩
    · simp only [after, hpc, BlobReadPc.start]
      exact ⟨rfl, rfl, .inside room skipped (fun he => hsmall (hends.mp he).2) hold rfl rfl rfl
        (by rintro _ ⟨⟩)⟩
  case h_5 room skipped packet rd i hpc =>
    obtain ⟨rd', -, rfl⟩ := Option.map_eq_some_iff.mp h
    exact afterView_moves hpc
  case h_6 room skipped packet rd hpc =>
    obtain ⟨rd', -, rfl⟩ := Option.map_eq_some_iff.mp h
    exact afterView_moves hpc
  -- `skip_overwritten` and `skip_hole`
  case h_7 room skipped seen hpc =>
    have hold : c.pc.call = some (room, skipped) := by rw [hpc]; rfl
    have hends : c.EndsEmpty cap acap ref ⟨mem, .tick⟩ ↔
        oldestRetained (max mem.writeSeq seen) cap.val ≤ c.cursor := by
      simp only [EndsEmpty, hpc, hstoring, true_and]
    split_ifs at h with hlt <;> cases h
    · simp only [after, hpc, BlobReceiver.lapTo]
      exact ⟨rfl, rfl, .lap room skipped _ (fun he => absurd (hends.mp he) (Nat.not_le.mpr hlt))
        hold (.inl hlt.le) rfl rfl⟩
    · simp only [after, hpc]
      exact ⟨rfl, ret_unstored rfl, .endEmpty room skipped _
        (hends.mpr (Nat.not_lt.mp hlt)) hold rfl hstoring rfl rfl rfl⟩
  case h_8 room skipped pc hpc =>
    have hold : c.pc.call = some (room, skipped) := by rw [hpc]; rfl
    have hends : c.EndsEmpty cap acap ref ⟨mem, .tick⟩ ↔
        pc.step cap (fun i => (mem.slots i).seq) mem.writeSeq c.cursor = .stay := by
      simp only [EndsEmpty, hpc, hstoring, true_and]
    split at h
    · next hstay =>
      cases h
      simp only [after, hpc]
      exact ⟨rfl, ret_unstored rfl, .endEmpty room skipped _ (hends.mpr hstay) hold rfl
        hstoring rfl rfl rfl⟩
    · next pc' hgo =>
      cases h
      simp only [after, hpc]
      refine ⟨rfl, rfl, .inside room skipped (fun he => ?_) hold rfl rfl rfl ?_⟩
      · cases hgo.symm.trans (hends.mp he)
      · rintro _ ⟨⟩
        exact .inr ⟨pc, hpc, hgo⟩
    · next target hmove =>
      cases h
      obtain ⟨ws, examined, rfl⟩ := HolePc.step_eq_move hmove
      simp only [after, hpc, BlobReceiver.lapTo]
      refine ⟨rfl, rfl, .lap room skipped target (fun he => ?_) hold
        (.inr ⟨ws, examined, hpc⟩) rfl rfl⟩
      cases hmove.symm.trans (hends.mp he)
  case h_9 => cases h

/-- What a call has skipped is told with its blob, or it is lost when the call returns none. -/
theorem Moves.counted [Inhabited ω] (h : Moves cap acap ref c c' a) (hin : c.InStatus)
    (hcalls : ∀ room, a.label = .call room → room.isSome = true) :
    Counted cap acap ref c c' a := by
  have hidle (hpc : c'.pc = .idle) : c'.InStatus ∧ c'.skippedNow = 0 := by
    simp only [InStatus, skippedNow, hpc, and_self]
  cases h.kind with
  | call room label old new account returned =>
    have hends : ¬ c.EndsEmpty cap acap ref a := fun he => by
      cases label.symm.trans he.2.1
    refine ⟨?_, fun he => absurd he hends, fun _ => ?_⟩
    · simp only [InStatus, new]
      exact hcalls room label
    · have htotal : c'.lappedTotal = c.lappedTotal := congrArg Account.lappedTotal account
      simp only [unreported, returned, htotal, skippedNow, old, new]
  | inside room skipped goes old new account returned scan =>
    have htotal : c'.lappedTotal = c.lappedTotal := congrArg Account.lappedTotal account
    refine ⟨(inStatus_iff_of_call new).mpr ((inStatus_iff_of_call old).mp hin),
      fun he => absurd he goes, fun _ => ?_⟩
    rw [unreported, unreported, returned, htotal, skippedNow_of_call old, skippedNow_of_call new]
  | lap room skipped target goes old le receiver returned =>
    -- the count of the call grows with `lapped_count`
    have hpc : c'.pc.call = some (room, skipped + (target - c.cursor)) := by
      rw [receiver]
      rfl
    have htotal : c'.lappedTotal = c.lappedTotal + (target - c.cursor) :=
      congrArg (fun r => r.lappedTotal) receiver
    refine ⟨(inStatus_iff_of_call hpc).mpr ((inStatus_iff_of_call old).mp hin),
      fun he => absurd he goes, fun _ => ?_⟩
    rw [unreported, unreported, returned, htotal, skippedNow_of_call old, skippedNow_of_call hpc]
    omega
  | deliver room skipped payloadLen goes old idle storing cursor lappedTotal returned =>
    rw [if_pos ((inStatus_iff_of_call old).mp hin)] at returned
    refine ⟨(hidle idle).1, fun he => absurd he goes, fun _ => ?_⟩
    rw [unreported, unreported, returned, lappedTotal, reportedBlobs_append,
      skippedBlobs_statusOf, (hidle idle).2, skippedNow_of_call old]
    omega
  | endEmpty room skipped x ends old idle storing account returned told =>
    have htotal : c'.lappedTotal = c.lappedTotal := congrArg Account.lappedTotal account
    rw [if_pos ((inStatus_iff_of_call old).mp hin)] at returned
    refine ⟨(hidle idle).1, fun _ => ?_, fun he => absurd ends he⟩
    rw [unreported, unreported, returned, htotal, reportedBlobs_append, told, (hidle idle).2]
    omega

/-- **What one memory access of `recv_status` does to the count.** -/
theorem observe_counted [Inhabited ω] (hin : c.InStatus)
    (hcalls : ∀ room, a.label = .call room → room.isSome = true)
    (h : c.observe cap acap ref a = some c') : Counted cap acap ref c c' a := by
  obtain ⟨⟨c'', stored⟩, hstep, rfl⟩ := Option.map_eq_some_iff.mp h
  unfold step at hstep
  cases hstoring : c.storing with
  | true =>
    -- `update_cursor`
    rw [hstoring, if_pos rfl] at hstep
    split at hstep <;> cases hstep
    refine ⟨hin, fun he => ?_, fun _ => rfl⟩
    rw [he.1] at hstoring
    cases hstoring
  | false =>
    rw [hstoring, if_neg Bool.false_ne_true] at hstep
    obtain ⟨r, hr, he⟩ := Option.map_eq_some_iff.mp hstep
    cases he
    exact (step_moves hstoring hr).counted hin hcalls

/-- A call that drops its count leaves that much untold, and no other step leaves anything. -/
theorem observe_unreported [Inhabited ω] (hin : c.InStatus)
    (hcalls : ∀ room, a.label = .call room → room.isSome = true)
    (h : c.observe cap acap ref a = some c') :
    c'.InStatus ∧ (c.DropsCount cap acap ref a → c.unreported < c'.unreported) ∧
      (¬ c.DropsCount cap acap ref a → c'.unreported = c.unreported) := by
  obtain ⟨hin', hends, hgoes⟩ := observe_counted hin hcalls h
  exact ⟨hin', rises_iff_of_ends hends hgoes⟩

/-- **When the results tell every loss**, as for a `RingConsumer`. -/
theorem reportedBlobs_iff [Inhabited ω] {c₀ : BlobClient w ω} {as : List (BlobSight w ω)}
    (hattached : c₀.pc = .idle) (hnone : c₀.returned = [])
    (hcalls : ∀ a ∈ as, ∀ room, a.label = .call room → room.isSome = true)
    (hr : Transition.run (observe cap acap ref) c₀ as = some c) (hidle : c.pc = .idle) :
    c₀.lappedTotal + reportedBlobs c.returned = c.lappedTotal ↔
      Transition.Avoids (DropsCount cap acap ref) (observe cap acap ref) c₀ as := by
  have hin : c₀.InStatus := by simp only [InStatus, hattached]
  have hrun : c.unreported = c₀.unreported ↔
      Transition.Avoids (DropsCount cap acap ref) (observe cap acap ref) c₀ as :=
    Transition.run_measure_iff (P := InStatus)
      (Q := fun a : BlobSight w ω => ∀ room, a.label = .call room → room.isSome = true)
      (fun hcall hc hstep => observe_unreported hc hcall hstep) hcalls hin hr
  have hnow₀ : c₀.skippedNow = 0 := by simp only [skippedNow, hattached]
  have hnow : c.skippedNow = 0 := by simp only [skippedNow, hidle]
  have hzero : reportedBlobs c₀.returned = 0 := by rw [hnone]; rfl
  rw [← hrun]
  unfold unreported
  rw [hnow, hnow₀, hzero]
  omega

end BlobClient

/-- **When every loss is told.** A consumer of either kind that only calls `recv_status`, next to
writers that do anything: between two calls the `skipped` of the statuses returned so far add up to
what `lapped_count` has counted since it attached, exactly when no call has skipped messages and
then ended without one. -/
theorem recvStatus_reports_iff [Inhabited ω] (cap : Capacity) (acap : ArenaCapacity)
    (ref : Payload w ω → BlobRef) :
    (∀ (c₀ c : RingConsumer w ω) (as : List (Sight w ω)), c₀.pc = .idle → c₀.returned = [] →
      (∀ a ∈ as, ∀ call, a.label = .call call → call = .recvStatus) →
      Transition.run (RingConsumer.observe cap) c₀ as = some c → c.pc = .idle →
      (c₀.lappedTotal + reported c.returned = c.lappedTotal ↔
        Transition.Avoids (RingConsumer.DropsCount cap) (RingConsumer.observe cap) c₀ as)) ∧
    (∀ (c₀ c : BlobClient w ω) (as : List (BlobSight w ω)), c₀.pc = .idle → c₀.returned = [] →
      (∀ a ∈ as, ∀ room, a.label = .call room → room.isSome = true) →
      Transition.run (BlobClient.observe cap acap ref) c₀ as = some c → c.pc = .idle →
      (c₀.lappedTotal + reportedBlobs c.returned = c.lappedTotal ↔
        Transition.Avoids (BlobClient.DropsCount cap acap ref) (BlobClient.observe cap acap ref)
          c₀ as)) :=
  ⟨fun _ _ _ hattached hnone hcalls hr hidle =>
      RingConsumer.reported_iff hattached hnone hcalls hr hidle,
    fun _ _ _ hattached hnone hcalls hr hidle =>
      BlobClient.reportedBlobs_iff hattached hnone hcalls hr hidle⟩

/-- A ring of one slot that holds message `2`. -/
def secondMessage (label : ConsumerLabel 0) : Sight 0 Unit := ⟨fun _ => ⟨2, nofun⟩, 2, label⟩

/-- A consumer at message `1` is told that it was lapped. -/
theorem recvStatus_reports_lapped :
    ∃ c : RingConsumer 0 Unit,
      Transition.run (RingConsumer.observe ⟨1, 0, rfl⟩) (.attach false false false 1 0)
        ((.call .recvStatus :: List.replicate 4 .tick).map secondMessage) = some c ∧
      c.lappedTotal = 1 ∧ reported c.returned = 1 ∧
      Transition.Avoids (RingConsumer.DropsCount ⟨1, 0, rfl⟩) (RingConsumer.observe ⟨1, 0, rfl⟩)
        (.attach false false false 1 0)
        ((.call .recvStatus :: List.replicate 4 .tick).map secondMessage) := by
  obtain ⟨c, hr, hidle, htotal, hreported⟩ : ∃ c : RingConsumer 0 Unit,
      Transition.run (RingConsumer.observe ⟨1, 0, rfl⟩) (.attach false false false 1 0)
        ((.call .recvStatus :: List.replicate 4 .tick).map secondMessage) = some c ∧
      c.pc = .idle ∧ c.lappedTotal = 1 ∧ reported c.returned = 1 := ⟨_, rfl, rfl, rfl, rfl⟩
  refine ⟨c, hr, htotal, hreported, ?_⟩
  refine ((recvStatus_reports_iff ⟨1, 0, rfl⟩ ⟨⟨64, 6, rfl⟩, by decide⟩
    (fun _ => BlobRef.empty)).1 _ c _ rfl rfl ?_ hr hidle).mp ?_
  · intro a ha call hcall
    rcases List.mem_map.mp ha with ⟨label, hlabel, rfl⟩
    rcases List.mem_cons.mp hlabel with rfl | htick
    · cases hcall
      rfl
    · cases (List.eq_of_mem_replicate htick).symm.trans hcall
  · rw [htotal, hreported]
    rfl

/-- A producer writes three messages into one slot. The consumer is lapped by the second, and finds
the third half written; its next call finds it complete. -/
def lapsTwice : List (Label Unit 0 Unit) :=
  .attach () 1 .oldest :: .reader () .tick ::
    (.producer (.call (.push nofun)) :: List.replicate 5 (.producer .tick)) ++
    (.producer (.call (.push nofun)) :: List.replicate 5 (.producer .tick)) ++
    [.reader () (.call .recvStatus), .reader () .tick,
      .producer (.call (.push nofun)), .producer .tick, .producer .tick,
      .reader () .tick, .reader () .tick] ++
    List.replicate 3 (.producer .tick) ++
    .reader () (.call .recvStatus) :: List.replicate 4 (.reader () .tick)

/-- **A loss that no status tells.** The first call skips a message and returns `Empty`; the second
skips another one and reports that one only. -/
theorem recvStatus_drops_count :
    ∃ (s : System Unit 0 Unit) (c : RingConsumer 0 Unit) (d : Payload 0 Unit),
      Transition.run (System.step System.oneSlot) (.create Unit 0 System.oneSlot) lapsTwice =
        some s ∧
      s.readers () = .attached 1 none c ∧ c.pc = .idle ∧
      c.returned = [.empty, .lapped 1 d] ∧ reported c.returned = 1 ∧ c.lappedTotal = 2 :=
  ⟨_, _, _, rfl, rfl, rfl, rfl, rfl, rfl⟩

end Ringfire
