import Ringfire.Blob.Channel
import Ringfire.Foundation.Transition

/-!
# What a blob consumer delivers

A consumer that drains a quiescent channel passes every sequence from its cursor to `write_seq`
once, returning a message or counting it as lapped. `kept` is what the code returns and `survivor`
what is still there to be returned: a retained descriptor whose payload, if it has one, was not
reserved over. The two differ for one kind of message only. `reserve` answers an empty payload with
`BlobRef::EMPTY`, whose offset is `0`, and `next_blob` puts it to the same test as any other
descriptor; so once the arena has been reserved past its capacity, empty messages count as lapped
although they occupy no byte of it. `read_record` of the replication source asks for `len > 0`
first and does not have this problem.

## Main results

* `BlobConsumer.drain_eq`: what draining returns and what it counts as lapped
* `blob_delivery_iff`: it is exactly what survives, unless an empty message is retained while the
  counter is past the arena's capacity
-/

namespace Ringfire

open PayloadArena

variable {μ β : Type} {cfg : BlobConfig} {b : BlobRing μ β}

namespace BlobRing

/-- What the consumer returns for sequence `s`. -/
def kept (cfg : BlobConfig) (b : BlobRing μ β) (s : ℕ) : Option (μ × List β) :=
  match b.sent[s - 1]? with
  | some x =>
    if b.writeSeq < s + cfg.cap.val ∧ isLapped cfg.arena b.arena.reserved x.1.blobRef = false then
      some (x.1.info, x.2)
    else none
  | none => none

/-- Message `s` if it survives: its descriptor is among the last `capacity` and its payload is
empty or was not reserved over. -/
def survivor (cfg : BlobConfig) (b : BlobRing μ β) (s : ℕ) : Option (μ × List β) :=
  match b.sent[s - 1]? with
  | some x =>
    if b.writeSeq < s + cfg.cap.val ∧
        (x.2 = [] ∨ b.arena.reserved ≤ x.1.blobRef.offset + cfg.arena.val) then
      some (x.1.info, x.2)
    else none
  | none => none

/-- The sequences from `cursor` to `write_seq`. -/
def unread (b : BlobRing μ β) (cursor : ℕ) : List ℕ :=
  List.range' cursor (b.writeSeq + 1 - cursor)

end BlobRing

namespace BlobConsumer

/-- `recv_status` with the status forgotten. -/
def receive (cfg : BlobConfig) (b : BlobRing μ β) (outLen : ℕ) :
    ℕ → BlobConsumer μ β → Option (Except RingfireError (Option (μ × List β)) × BlobConsumer μ β)
  | 0, _ => none
  | fuel + 1, c =>
    match c.turn cfg b outLen with
    | (.item message, c') => some (.ok (some message), c')
    | (.empty, c') => some (.ok none, c')
    | (.fail e, c') => some (.error e, c')
    | (.skip _, c') => receive cfg b outLen fuel c'

/-- What `next_blob` returns does not depend on what was skipped before. -/
theorem nextBlob_eq_receive (outLen : ℕ) :
    ∀ (fuel : ℕ) (c : BlobConsumer μ β) (skipped : ℕ),
      (c.nextBlob cfg b outLen fuel skipped).map
          (fun x => (x.1.map fun got => got.map Prod.fst, x.2)) =
        c.receive cfg b outLen fuel := by
  intro fuel
  induction fuel with
  | zero =>
    intro c skipped
    rfl
  | succ fuel ih =>
    intro c skipped
    rw [nextBlob, receive]
    rcases c.turn cfg b outLen with ⟨t, c'⟩
    cases t with
    | item message => rfl
    | empty => rfl
    | skip n => exact ih c' (skipped + n)
    | fail e => rfl

/-- The rounds after `got` was received. -/
def drainAfter (cfg : BlobConfig) (b : BlobRing μ β) (outLen fuel rounds : ℕ) :
    Option (Except RingfireError (Option (μ × List β)) × BlobConsumer μ β) →
      Option (List (μ × List β) × BlobConsumer μ β)
  | some (.ok (some message), c') =>
    (drain cfg b outLen fuel rounds c').map fun (ms, c'') => (message :: ms, c'')
  | some (.ok none, c') => some ([], c')
  | some (.error _, _) => none
  | none => none

theorem drain_succ (outLen fuel rounds : ℕ) (c : BlobConsumer μ β) :
    c.drain cfg b outLen fuel (rounds + 1) =
      drainAfter cfg b outLen fuel rounds (c.receive cfg b outLen fuel) := by
  rw [drain, ← nextBlob_eq_receive outLen fuel c 0, recvStatus]
  rcases c.nextBlob cfg b outLen fuel 0 with _ | ⟨_ | _ | ⟨message, _ | skipped⟩, c'⟩ <;> rfl

/-! ## One turn -/

variable {c : BlobConsumer μ β} {outLen : ℕ}

theorem turn_kept (h : b.Inv cfg) {message : μ × List β} (hpos : 1 ≤ c.cursor)
    (hk : b.kept cfg c.cursor = some message) (hout : ∀ x ∈ b.sent, x.2.length ≤ outLen) :
    c.turn cfg b outLen =
      (.item message, { c with toAccount := c.toAccount.deliver message }) := by
  unfold BlobRing.kept at hk
  split at hk
  · next x hx =>
    split_ifs at hk with hcond
    cases hk
    obtain ⟨hret, hlap⟩ := hcond
    have hmem := List.mem_of_getElem? hx
    obtain ⟨hw, -⟩ := h.sent x hmem
    obtain ⟨hgr, hlen, -⟩ := h.arena.written _ _ hw
    have hb := (h.arena.allocated.placed _ hgr).1
    have hroom := hout x hmem
    rw [turn, h.read_retained hpos hx hret]
    simp only [hb, hlap, h.arena.viewBlob hw hlap]
    rw [if_neg (by simp), if_neg (by omega), if_neg (by simp)]
  · cases hk

theorem turn_lapped (h : b.Inv cfg) (hpos : 1 ≤ c.cursor) (hle : c.cursor ≤ b.writeSeq)
    (hret : b.writeSeq < c.cursor + cfg.cap.val) (hk : b.kept cfg c.cursor = none) :
    c.turn cfg b outLen = (.skip 1, c.skipCurrent) := by
  have hws := h.writeSeq
  have hlt : c.cursor - 1 < b.sent.length := by omega
  have hx := List.getElem?_eq_getElem hlt
  have hlap : isLapped cfg.arena b.arena.reserved (b.sent[c.cursor - 1]).1.blobRef = true := by
    unfold BlobRing.kept at hk
    rw [hx] at hk
    simp only at hk
    split_ifs at hk with hcond
    rw [not_and, Bool.not_eq_false] at hcond
    exact hcond hret
  rw [turn, h.read_retained hpos hx hret]
  simp only [hlap]
  rw [if_pos (.inr trivial)]

theorem turn_overwritten (outLen : ℕ) (h : b.Inv cfg) (hpos : 1 ≤ c.cursor)
    (hret : c.cursor + cfg.cap.val ≤ b.writeSeq) :
    ∃ n, c.turn cfg b outLen = (.skip n, { c with
      toAccount := c.toAccount.lap (oldestRetained b.writeSeq cfg.cap.val) }) := by
  obtain ⟨seen, hseen, hread⟩ := h.read_overwritten hpos hret
  have hlt := (lt_oldestRetained hpos).mpr hret
  refine ⟨oldestRetained b.writeSeq cfg.cap.val - c.cursor, ?_⟩
  rw [turn, hread]
  simp only [Account.skipOverwritten, max_eq_left hseen, if_pos hlt]
  rw [if_neg (by omega)]

theorem turn_empty (h : b.Inv cfg) (hc : c.sparse = false) (hlt : b.writeSeq < c.cursor) :
    c.turn cfg b outLen = (.empty, c) := by
  rw [turn, h.read_pending hlt]
  simp only [hc, Bool.false_eq_true, if_false]

/-! ## A whole drain -/

/-- Draining from a retained position. The induction is on how far the cursor is from the end;
`left` is the fuel left in the call that is going on. -/
theorem drainAfter_retained (h : b.Inv cfg) (hout : ∀ x ∈ b.sent, x.2.length ≤ outLen)
    (fuel : ℕ) :
    ∀ (n : ℕ) (c : BlobConsumer μ β) (left rounds : ℕ), b.writeSeq + 1 - c.cursor = n →
      c.sparse = false → 1 ≤ c.cursor → b.writeSeq < c.cursor + cfg.cap.val → n < left →
      n < fuel → n ≤ rounds →
      drainAfter cfg b outLen fuel rounds (c.receive cfg b outLen left) =
        some ((b.unread c.cursor).filterMap (b.kept cfg),
          { c with toAccount := c.toAccount.pass (b.kept cfg) n }) := by
  intro n
  induction n with
  | zero =>
    intro c left rounds hn hc hpos hret hleft _ _
    obtain ⟨left, rfl⟩ : ∃ k, left = k + 1 := ⟨left - 1, by omega⟩
    rw [receive, turn_empty h hc (by omega), BlobRing.unread, hn]
    rfl
  | succ n ih =>
    intro c left rounds hn hc hpos hret hleft hfuel hrounds
    obtain ⟨left, rfl⟩ : ∃ k, left = k + 1 := ⟨left - 1, by omega⟩
    obtain ⟨rounds, rfl⟩ : ∃ k, rounds = k + 1 := ⟨rounds - 1, by omega⟩
    have hrange : b.unread c.cursor = c.cursor :: b.unread (c.cursor + 1) := by
      have hn' : b.writeSeq + 1 - (c.cursor + 1) = n := by omega
      rw [BlobRing.unread, BlobRing.unread, hn, hn', List.range'_succ]
    cases hk : b.kept cfg c.cursor with
    | some message =>
      -- the message is returned and the next call goes on behind it
      have hrest := ih { c with toAccount := c.toAccount.deliver message } fuel rounds
        (show b.writeSeq + 1 - (c.cursor + 1) = n by omega) hc (Nat.succ_pos _)
        (show b.writeSeq < c.cursor + 1 + cfg.cap.val by omega) (by omega) (by omega) (by omega)
      rw [receive, turn_kept h hpos hk hout]
      show (drain cfg b outLen fuel (rounds + 1)
        { c with toAccount := c.toAccount.deliver message }).map _ = _
      rw [drain_succ, hrest, hrange, List.filterMap_cons, hk, Account.pass, hk]
      rfl
    | none =>
      -- the message is skipped within the call
      have hrest := ih c.skipCurrent left (rounds + 1)
        (show b.writeSeq + 1 - (c.cursor + 1) = n by omega) hc (Nat.succ_pos _)
        (show b.writeSeq < c.cursor + 1 + cfg.cap.val by omega) (by omega) (by omega) (by omega)
      rw [receive, turn_lapped h hpos (by omega) hret hk]
      simp only [hrest]
      rw [hrange, List.filterMap_cons, hk, Account.pass, hk]
      rfl

/-- **What draining returns and what it counts as lapped.** -/
theorem drain_eq (h : b.Inv cfg) (hout : ∀ x ∈ b.sent, x.2.length ≤ outLen) (hc : c.sparse = false)
    (hpos : 1 ≤ c.cursor) {fuel rounds : ℕ} (hfuel : b.writeSeq + 2 < fuel)
    (hrounds : b.writeSeq + 2 < rounds) :
    c.drain cfg b outLen fuel rounds =
      some ((b.unread c.cursor).filterMap (b.kept cfg),
        { c with toAccount :=
          c.toAccount.pass (b.kept cfg) (b.writeSeq + 1 - c.cursor) }) := by
  obtain ⟨rounds, rfl⟩ : ∃ k, rounds = k + 1 := ⟨rounds - 1, by omega⟩
  rw [drain_succ]
  rcases Nat.lt_or_ge b.writeSeq (c.cursor + cfg.cap.val) with hret | hret
  · exact drainAfter_retained h hout fuel _ c fuel rounds rfl hc hpos hret (by omega) (by omega)
      (by omega)
  · -- the first turn skips to the oldest retained descriptor
    obtain ⟨fuel, rfl⟩ : ∃ k, fuel = k + 1 := ⟨fuel - 1, by omega⟩
    have hlt := (lt_oldestRetained hpos).mpr hret
    have hold := one_le_oldestRetained b.writeSeq cfg.cap.val
    have hcap := cfg.cap.pos
    have hle : oldestRetained b.writeSeq cfg.cap.val ≤ b.writeSeq := by
      rw [oldestRetained_le (by omega)]
      omega
    obtain ⟨n, hturn⟩ := turn_overwritten outLen h hpos hret
    have hrest := drainAfter_retained h hout (fuel + 1) _
      { c with toAccount := c.toAccount.lap (oldestRetained b.writeSeq cfg.cap.val) } fuel rounds
      rfl hc hold ((oldestRetained_le hold).mp (le_refl _))
      (show b.writeSeq + 1 - oldestRetained b.writeSeq cfg.cap.val < fuel by omega)
      (show b.writeSeq + 1 - oldestRetained b.writeSeq cfg.cap.val < fuel + 1 by omega)
      (show b.writeSeq + 1 - oldestRetained b.writeSeq cfg.cap.val ≤ rounds by omega)
    rw [receive, hturn]
    simp only [hrest]
    have hgone : ∀ s, c.cursor ≤ s → s < c.cursor + (oldestRetained b.writeSeq cfg.cap.val - c.cursor) →
        b.kept cfg s = none := by
      intro s hs hs'
      have hover : s + cfg.cap.val ≤ b.writeSeq := (lt_oldestRetained (by omega)).mp (by omega)
      unfold BlobRing.kept
      split
      · rw [if_neg (fun hcond => by omega)]
      · rfl
    have hsum : b.writeSeq + 1 - c.cursor = oldestRetained b.writeSeq cfg.cap.val - c.cursor +
        (b.writeSeq + 1 - oldestRetained b.writeSeq cfg.cap.val) := by omega
    have hend : c.cursor + (oldestRetained b.writeSeq cfg.cap.val - c.cursor) =
        oldestRetained b.writeSeq cfg.cap.val := by omega
    have hpass := Account.pass_none (b.writeSeq + 1 - oldestRetained b.writeSeq cfg.cap.val) _
      c.toAccount hgone
    rw [hend] at hpass
    have hnil : (List.range' c.cursor (oldestRetained b.writeSeq cfg.cap.val - c.cursor)).filterMap
        (b.kept cfg) = [] := by
      rw [List.filterMap_eq_nil_iff]
      intro s hs
      exact hgone s (List.mem_range'_1.mp hs).1 (List.mem_range'_1.mp hs).2
    rw [hsum, hpass, BlobRing.unread, BlobRing.unread,
      range'_split hlt.le (show oldestRetained b.writeSeq cfg.cap.val ≤ b.writeSeq + 1 by omega),
      List.filterMap_append, hnil]
    rfl

/-- Draining returns exactly what survives, in order, and counts every other sequence as lapped
exactly once. -/
def DeliversSurvivors (cfg : BlobConfig) (b : BlobRing μ β) (outLen fuel rounds : ℕ)
    (c : BlobConsumer μ β) : Prop :=
  ∃ c', c.drain cfg b outLen fuel rounds =
      some ((b.unread c.cursor).filterMap (b.survivor cfg), c') ∧
    c'.delivered = c.delivered ++
      (b.unread c.cursor).filterMap (fun s => (b.survivor cfg s).map (s, ·)) ∧
    c'.lapped = c.lapped ++ (b.unread c.cursor).filter (fun s => (b.survivor cfg s).isNone) ∧
    c'.lappedTotal = c.lappedTotal +
      ((b.unread c.cursor).filter (fun s => (b.survivor cfg s).isNone)).length

end BlobConsumer

namespace BlobRing

/-- No empty message that is still retained from `cursor` on meets a counter past the arena's
capacity. -/
def EmptySafe (cfg : BlobConfig) (b : BlobRing μ β) (cursor : ℕ) : Prop :=
  ∀ s info, cursor ≤ s → b.writeSeq < s + cfg.cap.val → b.message s = some (info, []) →
    b.arena.reserved ≤ cfg.arena.val

theorem message_eq_some {s : ℕ} {m : μ × List β} :
    b.message s = some m ↔ ∃ x, b.sent[s - 1]? = some x ∧ (x.1.info, x.2) = m := by
  rw [message, Option.map_eq_some_iff]

/-- For a message with a payload, what is kept is what survives. -/
theorem kept_eq_survivor {s : ℕ} {x : BlobPacket μ × List β} (hx : b.sent[s - 1]? = some x)
    (h : x.2 = [] → b.writeSeq < s + cfg.cap.val →
      b.arena.reserved ≤ x.1.blobRef.offset + cfg.arena.val) :
    b.kept cfg s = b.survivor cfg s := by
  unfold kept survivor
  rw [hx]
  simp only [isLapped_eq_false]
  congr 1
  simp only [eq_iff_iff, and_congr_right_iff]
  intro hret
  constructor
  · exact .inr
  · rintro (hempty | hle)
    · exact h hempty hret
    · exact hle

theorem kept_eq_survivor_of_safe (h : b.Inv cfg) {cursor : ℕ} (hsafe : b.EmptySafe cfg cursor)
    {s : ℕ} (hs : cursor ≤ s) : b.kept cfg s = b.survivor cfg s := by
  cases hx : b.sent[s - 1]? with
  | none => rw [kept, survivor, hx]
  | some x =>
    apply kept_eq_survivor hx
    intro hempty hret
    have hoffset := (h.sent x (List.mem_of_getElem? hx)).2 hempty
    have hle := hsafe s x.1.info hs hret (message_eq_some.mpr ⟨x, hx, by rw [hempty]⟩)
    rw [hoffset]
    exact hle.trans (Nat.le_add_left _ _)

/-- An empty message behind a counter past the capacity survives and is not kept. -/
theorem kept_ne_survivor (h : b.Inv cfg) {s : ℕ} {info : μ} (hret : b.writeSeq < s + cfg.cap.val)
    (hm : b.message s = some (info, [])) (hlap : cfg.arena.val < b.arena.reserved) :
    b.kept cfg s = none ∧ b.survivor cfg s = some (info, []) := by
  obtain ⟨x, hx, hmsg⟩ := message_eq_some.mp hm
  have hempty : x.2 = [] := congrArg Prod.snd hmsg
  have hoffset := (h.sent x (List.mem_of_getElem? hx)).2 hempty
  unfold kept survivor
  rw [hx]
  simp only [isLapped_eq_false, hmsg]
  constructor
  · rw [if_neg]
    rintro ⟨-, hle⟩
    rw [hoffset] at hle
    simp only [BlobRef.empty] at hle
    omega
  · rw [if_pos ⟨hret, .inl hempty⟩]

end BlobRing

/-- **A blob consumer delivers exactly what survives, unless the arena counter is past the
capacity while an empty message is retained.** The messages are the pushes the arena accepted, in
order. -/
theorem blob_delivery_iff [Inhabited μ] [Inhabited β] {hist : List (μ × List β)}
    (hrun : Transition.run (BlobRing.pushStep cfg) .create hist = some b)
    {c : BlobConsumer μ β} (hc : c.sparse = false) (hpos : 1 ≤ c.cursor) {outLen fuel rounds : ℕ}
    (hout : ∀ x ∈ b.sent, x.2.length ≤ outLen) (hfuel : b.writeSeq + 2 < fuel)
    (hrounds : b.writeSeq + 2 < rounds) :
    b.sent.map (fun x => (x.1.info, x.2)) = BlobRing.accepted cfg hist ∧
      (c.DeliversSurvivors cfg b outLen fuel rounds ↔ b.EmptySafe cfg c.cursor) := by
  obtain ⟨hinv, hsent⟩ := (BlobRing.Inv.create cfg).run hrun
  have hdrain := BlobConsumer.drain_eq hinv hout hc hpos hfuel hrounds
  obtain ⟨-, hdel, hlap, htot⟩ :=
    Account.pass_spec (b.kept cfg) (b.writeSeq + 1 - c.cursor) c.toAccount
  refine ⟨hsent, fun hd => ?_, fun hsafe => ?_⟩
  · -- a bad message would be among what is counted as lapped
    obtain ⟨c', hdrain', -, hlap', -⟩ := hd
    rw [hdrain] at hdrain'
    obtain ⟨-, rfl⟩ := Prod.mk.inj (Option.some_injective _ hdrain')
    intro s info hs hret hm
    by_contra hover
    obtain ⟨hkept, hsurv⟩ := BlobRing.kept_ne_survivor hinv hret hm (Nat.not_le.mp hover)
    have hle : s ≤ b.writeSeq := by
      obtain ⟨x, hx, -⟩ := BlobRing.message_eq_some.mp hm
      obtain ⟨hlt, -⟩ := List.getElem?_eq_some_iff.mp hx
      have hws := hinv.writeSeq
      omega
    have hmem : s ∈ b.unread c.cursor := List.mem_range'_1.mpr ⟨hs, by omega⟩
    have heq := List.append_cancel_left (hlap.symm.trans hlap')
    have hin : s ∈ (b.unread c.cursor).filter (fun s => (b.kept cfg s).isNone) := by
      rw [List.mem_filter, hkept]
      exact ⟨hmem, rfl⟩
    rw [BlobRing.unread] at hin
    rw [heq, List.mem_filter, hsurv] at hin
    cases hin.2
  · have hagree : ∀ s ∈ b.unread c.cursor, b.kept cfg s = b.survivor cfg s := fun s hs =>
      BlobRing.kept_eq_survivor_of_safe hinv hsafe (List.mem_range'_1.mp hs).1
    have hfilter : (b.unread c.cursor).filter (fun s => (b.survivor cfg s).isNone) =
        (b.unread c.cursor).filter (fun s => (b.kept cfg s).isNone) :=
      List.filter_congr fun s hs => by rw [hagree s hs]
    refine ⟨{ c with toAccount := c.toAccount.pass (b.kept cfg) (b.writeSeq + 1 - c.cursor) },
      ?_, ?_, ?_, ?_⟩
    · rw [hdrain, List.filterMap_congr hagree]
    · rw [hdel]
      exact congrArg (c.delivered ++ ·)
        (List.filterMap_congr fun s hs => by rw [hagree s hs])
    · rw [hlap, hfilter]
      rfl
    · rw [htot, hfilter]
      rfl

/-- Four slots and an arena of one cache line. -/
def oneLine : BlobConfig := ⟨⟨4, isPowerOfTwo_four⟩, .oneLine⟩

/-- A consumer at the start of the channel. -/
def BlobConsumer.atStart : BlobConsumer ℕ ℕ := ⟨⟨1, 0, [], [], []⟩, false, 0⟩

/-- An empty message and one that fills the arena are both delivered. -/
theorem blob_delivery_full :
    ∃ b : BlobRing ℕ ℕ,
      Transition.run (BlobRing.pushStep oneLine) .create [(7, []), (8, [1, 2])] = some b ∧
      BlobConsumer.atStart.DeliversSurvivors oneLine b 2 5 5 := by
  obtain ⟨b, hb⟩ : ∃ b : BlobRing ℕ ℕ,
      Transition.run (BlobRing.pushStep oneLine) .create [(7, []), (8, [1, 2])] = some b :=
    ⟨_, rfl⟩
  have hws : b.writeSeq = 2 ∧ b.arena.reserved = 64 ∧ ∀ x ∈ b.sent, x.2.length ≤ 2 := by
    cases hb
    exact ⟨rfl, rfl, by decide⟩
  obtain ⟨hws, hreserved, hout⟩ := hws
  refine ⟨b, hb, (blob_delivery_iff hb rfl (le_refl 1) hout (by omega) (by omega)).2.mpr ?_⟩
  intro s info _ _ _
  rw [hreserved]
  exact le_refl 64

/-- An empty message and two of one byte: the third reservation takes the counter past the
capacity, and the empty message is counted as lapped although its descriptor is retained. -/
theorem blob_empty_lost :
    ∃ b : BlobRing ℕ ℕ,
      Transition.run (BlobRing.pushStep oneLine) .create [(7, []), (8, [1]), (9, [2])] = some b ∧
      b.survivor oneLine 1 = some (7, []) ∧
      (BlobConsumer.atStart.drain oneLine b 1 6 6).map Prod.fst = some [(9, [2])] ∧
      ¬ BlobConsumer.atStart.DeliversSurvivors oneLine b 1 6 6 := by
  obtain ⟨b, hb⟩ : ∃ b : BlobRing ℕ ℕ,
      Transition.run (BlobRing.pushStep oneLine) .create [(7, []), (8, [1]), (9, [2])] = some b :=
    ⟨_, rfl⟩
  obtain ⟨hsurv, hall, hdrain⟩ : b.survivor oneLine 1 = some (7, []) ∧
      (b.unread 1).filterMap (b.survivor oneLine) = [(7, []), (9, [2])] ∧
      (BlobConsumer.atStart.drain oneLine b 1 6 6).map Prod.fst = some [(9, [2])] := by
    cases hb
    exact ⟨rfl, rfl, rfl⟩
  refine ⟨b, hb, hsurv, hdrain, ?_⟩
  rintro ⟨c', hdrain', -⟩
  rw [hdrain', show BlobConsumer.atStart.cursor = 1 from rfl, hall] at hdrain
  simp at hdrain

end Ringfire
