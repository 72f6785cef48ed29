import Ringfire.Mpmc.System
import Ringfire.Replication.Collect
import Ringfire.Ring.Sequential

/-!
# Serving a ring against reading it

A ring with fixed-size records is served by the loop of `serve_client` and read by a
`RingConsumer`. Both go from one sequence to the next the same way as long as the slot holds the
message or a later one (`SourceRing.hop`). They part where the slot holds neither: a consumer of a
multi-producer ring gives up on a ticket a full ring behind, and a consumer of a sparse ring jumps
over a hole, while the server waits. `SourceRing.Skips` says where a consumer goes on and the
server does not.

## Main definitions

* `SourceRing.Path`: the messages from a cursor on, up to where the server stops for good
* `SourceRing.ServesAsRead`: the server sends what a consumer returns

## Main results

* `SourceRing.Path.serve`, `SourceRing.Path.poll`: what the server sends, what a consumer returns
* `SourceRing.Path.servesAsRead_iff`: serving agrees with reading when the consumer skips nothing
-/

namespace Ringfire

variable {w : ℕ}

/-- `n` calls of `recv_status`, with the messages they return. -/
def RingConsumer.poll {ω : Type} (cap : Capacity) (slots : ℕ → Slot w ω) (writeSeq fuel : ℕ) :
    ℕ → RingConsumer w ω → Option (List (Payload w ω) × RingConsumer w ω)
  | 0, c => some ([], c)
  | n + 1, c =>
    match c.recvStatus cap slots writeSeq fuel with
    | some (.empty, c') => poll cap slots writeSeq fuel n c'
    | some (.ok data, c') | some (.lapped _ data, c') =>
      (poll cap slots writeSeq fuel n c').map fun (ds, c'') => (data :: ds, c'')
    | none => none

/-- The record of a message on a ring without an arena. -/
def plainRecord (d : Payload w UInt8) : Record := ⟨payloadBytes d, []⟩

namespace SourceRing

/-- Where a reader of sequence `p` goes when its slot holds the message or a later one, and the
message it gets. -/
def hop (ring : SourceRing w) (p : ℕ) : Option (Option (Payload w UInt8) × ℕ) :=
  match readSlot (ring.slot p) p with
  | .item d => some (some d, p + 1)
  | .overwritten seen => if p < ring.resync seen then some (none, ring.resync seen) else none
  | .pending => none

/-- A consumer gives up on sequence `p`, which is not in its slot: on a multi-producer ring when
`write_seq` is a full ring ahead, on a sparse ring when it has passed `p`. -/
def Skips (ring : SourceRing w) (p : ℕ) : Prop :=
  if ring.multiProducer then
    readSlot (ring.slot p) p = .pending ∧ p + ring.cap.val ≤ ring.writeSeq
  else ring.sparse = true ∧ p ≤ ring.writeSeq ∧ (ring.slot p).seq ≠ slotWriting ∧
    (ring.slot p).seq < p

/-- The messages from `p` on and the sequence where the hops end. -/
inductive Path (ring : SourceRing w) : ℕ → List (Payload w UInt8) → ℕ → Prop where
  | stop {p : ℕ} (h : ring.hop p = none) : Path ring p [] p
  | item {p p' q : ℕ} {d : Payload w UInt8} {ds : List (Payload w UInt8)}
      (h : ring.hop p = some (some d, p')) (rest : Path ring p' ds q) : Path ring p (d :: ds) q
  | jump {p p' q : ℕ} {ds : List (Payload w UInt8)} (h : ring.hop p = some (none, p'))
      (rest : Path ring p' ds q) : Path ring p ds q

variable {ring : SourceRing w} {p p' q : ℕ} {ds : List (Payload w UInt8)}

theorem hop_of_item {d : Payload w UInt8} (h : readSlot (ring.slot p) p = .item d) :
    ring.hop p = some (some d, p + 1) := by
  rw [hop, h]

theorem hop_of_pending (h : readSlot (ring.slot p) p = .pending) : ring.hop p = none := by
  rw [hop, h]

theorem hop_of_overwritten {seen : ℕ} (h : readSlot (ring.slot p) p = .overwritten seen)
    (hlt : p < ring.resync seen) : ring.hop p = some (none, ring.resync seen) := by
  rw [hop, h]
  exact if_pos hlt

theorem hop_eq_item {d : Payload w UInt8} (h : ring.hop p = some (some d, p')) :
    readSlot (ring.slot p) p = .item d ∧ p' = p + 1 := by
  unfold hop at h
  split at h
  · next hread =>
    cases h
    exact ⟨hread, rfl⟩
  · split_ifs at h
    cases h
  · cases h

theorem hop_eq_jump (h : ring.hop p = some (none, p')) :
    ∃ seen, readSlot (ring.slot p) p = .overwritten seen ∧ p < ring.resync seen ∧
      p' = ring.resync seen := by
  unfold hop at h
  split at h
  · cases h
  · next seen hread =>
    split_ifs at h with hlt
    cases h
    exact ⟨seen, hread, hlt, rfl⟩
  · cases h

theorem lt_of_hop {r : Option (Payload w UInt8)} (h : ring.hop p = some (r, p')) : p < p' := by
  cases r with
  | some d =>
    rw [(hop_eq_item h).2]
    exact Nat.lt_succ_self p
  | none =>
    obtain ⟨seen, -, hlt, rfl⟩ := hop_eq_jump h
    exact hlt

theorem Path.le (h : ring.Path p ds q) : p ≤ q := by
  induction h with
  | stop h => exact le_refl _
  | item h rest ih => exact (lt_of_hop h).le.trans ih
  | jump h rest ih => exact (lt_of_hop h).le.trans ih

theorem Path.hop_end (h : ring.Path p ds q) : ring.hop q = none := by
  induction h with
  | stop h => exact h
  | item _ _ ih => exact ih
  | jump _ _ ih => exact ih

theorem Path.eq_of_hop (h : ring.Path p ds q) (hhop : ring.hop p = none) : ds = [] ∧ q = p := by
  cases h with
  | stop => exact ⟨rfl, rfl⟩
  | item h => rw [hhop] at h; cases h
  | jump h => rw [hhop] at h; cases h

theorem Path.of_item {d : Payload w UInt8} (h : ring.Path p ds q)
    (hhop : ring.hop p = some (some d, p')) : ∃ ds', ds = d :: ds' ∧ ring.Path p' ds' q := by
  cases h with
  | stop h => rw [hhop] at h; cases h
  | item h rest =>
    rw [hhop] at h
    cases h
    exact ⟨_, rfl, rest⟩
  | jump h => rw [hhop] at h; cases h

theorem Path.of_jump (h : ring.Path p ds q) (hhop : ring.hop p = some (none, p')) :
    ring.Path p' ds q := by
  cases h with
  | stop h => rw [hhop] at h; cases h
  | item h => rw [hhop] at h; cases h
  | jump h rest =>
    rw [hhop] at h
    cases h
    exact rest

theorem Path.unique {ds' : List (Payload w UInt8)} {q' : ℕ} (h : ring.Path p ds q)
    (h' : ring.Path p ds' q') : ds = ds' ∧ q = q' := by
  induction h generalizing ds' with
  | stop h =>
    obtain ⟨rfl, rfl⟩ := h'.eq_of_hop h
    exact ⟨rfl, rfl⟩
  | item h rest ih =>
    obtain ⟨ds'', rfl, hrest⟩ := h'.of_item h
    obtain ⟨rfl, rfl⟩ := ih hrest
    exact ⟨rfl, rfl⟩
  | jump h rest ih => exact ih (h'.of_jump h)

theorem slotIndex_lt (cap : Capacity) (seq : ℕ) : slotIndex cap seq < cap.val := by
  rw [slotIndex_eq_mod]
  exact Nat.mod_lt seq cap.pos

/-- Beyond every slot word there is nothing to read. -/
theorem exists_hop_eq_none (ring : SourceRing w) : ∃ bound, ∀ p, bound < p → ring.hop p = none := by
  refine ⟨(Finset.range ring.cap.val).sup fun i => (ring.slots i).seq, fun p hp => ?_⟩
  have hle : (ring.slot p).seq ≤ (Finset.range ring.cap.val).sup fun i => (ring.slots i).seq :=
    Finset.le_sup (f := fun i => (ring.slots i).seq)
      (Finset.mem_range.mpr (slotIndex_lt ring.cap p))
  unfold hop
  rw [readSlot_eq, if_neg (by omega), if_pos (.inr (by omega))]

/-- From `p` the messages `ds` lead to `p'`. -/
structure Follows (ring : SourceRing w) (p : ℕ) (ds : List (Payload w UInt8)) (p' : ℕ) : Prop where
  le : p ≤ p'
  path : ∀ {es q}, ring.Path p es q → ∃ es', es = ds ++ es' ∧ ring.Path p' es' q

theorem Follows.refl (ring : SourceRing w) (p : ℕ) : ring.Follows p [] p :=
  ⟨le_refl p, fun h => ⟨_, rfl, h⟩⟩

theorem Follows.trans {es : List (Payload w UInt8)} (h : ring.Follows p ds p')
    (h' : ring.Follows p' es q) : ring.Follows p (ds ++ es) q := by
  refine ⟨h.le.trans h'.le, fun hpath => ?_⟩
  obtain ⟨ds', rfl, hpath'⟩ := h.path hpath
  obtain ⟨es', rfl, hrest⟩ := h'.path hpath'
  exact ⟨es', (List.append_assoc _ _ _).symm, hrest⟩

theorem Follows.item {d : Payload w UInt8} (h : ring.hop p = some (some d, p')) :
    ring.Follows p [d] p' :=
  ⟨(lt_of_hop h).le, fun hpath => hpath.of_item h⟩

theorem Follows.jump (h : ring.hop p = some (none, p')) : ring.Follows p [] p' :=
  ⟨(lt_of_hop h).le, fun hpath => ⟨_, rfl, hpath.of_jump h⟩⟩

theorem readRecord_eq (harena : ring.arena = none) (p : ℕ) :
    ring.readRecord p =
      match readSlot (ring.slot p) p with
      | .item d => .item (plainRecord d)
      | .pending => .pending
      | .overwritten seen => .overwritten seen := by
  unfold readRecord
  rw [read_eq, harena]
  cases readSlot (ring.slot p) p <;> rfl

/-- What was collected from `p` on: the messages `ds`, and a later one in the slot behind them if
the server was lapped. -/
structure Gathered (ring : SourceRing w) (p : ℕ) (out : List Record)
    (got : Collected × List Record) (ds : List (Payload w UInt8)) : Prop where
  out : got.2 = out ++ ds.map plainRecord
  count : got.1.count = ds.length
  lost : got.1.lost = false
  follows : ring.Follows p ds (p + got.1.count)
  lapped : ∀ seen, got.1.lapped = some seen →
    readSlot (ring.slot (p + got.1.count)) (p + got.1.count) = .overwritten seen

theorem Gathered.append {out : List Record} {got more : Collected × List Record}
    {es : List (Payload w UInt8)} (h : ring.Gathered p out got ds)
    (h' : ring.Gathered (p + got.1.count) got.2 more es) :
    ring.Gathered p out (⟨got.1.count + more.1.count, more.1.lapped, more.1.lost⟩, more.2)
      (ds ++ es) where
  out := by rw [h'.out, h.out, List.map_append, List.append_assoc]
  count := by rw [List.length_append, ← h.count, ← h'.count]
  lost := h'.lost
  follows := by
    rw [← Nat.add_assoc]
    exact h.follows.trans h'.follows
  lapped := by
    rw [← Nat.add_assoc]
    exact h'.lapped

theorem collectLoop_gathered (harena : ring.arena = none) (cursor maxBytes : ℕ) :
    ∀ (left : ℕ) (out : List Record) (ds : List (Payload w UInt8)),
      ring.Follows cursor ds (cursor + ds.length) →
      ∃ ds', ds.length ≤ ds'.length ∧ ring.Gathered cursor out
        (ring.collectLoop cursor maxBytes left ds.length (out ++ ds.map plainRecord)) ds' := by
  intro left
  induction left with
  | zero => exact fun out ds h => ⟨ds, le_refl _, rfl, rfl, rfl, h, by rintro _ ⟨⟩⟩
  | succ left ih =>
    intro out ds h
    rw [collectLoop, readRecord_eq harena]
    cases hread : readSlot (ring.slot (cursor + ds.length)) (cursor + ds.length) with
    | pending => exact ⟨ds, le_refl _, rfl, rfl, rfl, h, by rintro _ ⟨⟩⟩
    | overwritten seen =>
      refine ⟨ds, le_refl _, rfl, rfl, rfl, h, ?_⟩
      rintro _ ⟨⟩
      exact hread
    | item d =>
      have hone := h.trans (.item (hop_of_item hread))
      have hout : out ++ ds.map plainRecord ++ [plainRecord d] =
          out ++ (ds ++ [d]).map plainRecord := by
        rw [List.map_append, List.append_assoc]
        rfl
      have hlen : (ds ++ [d]).length = ds.length + 1 := by simp
      simp only [collectTurn, hout]
      split_ifs
      · exact ⟨ds, le_refl _, rfl, rfl, rfl, h, by rintro _ ⟨⟩⟩
      · exact ⟨ds ++ [d], by omega, rfl, hlen.symm, rfl, hone, by rintro _ ⟨⟩⟩
      · obtain ⟨ds', hle, hall⟩ := ih out (ds ++ [d]) (by rw [hlen]; exact hone)
        rw [hlen] at hle hall
        exact ⟨ds', by omega, hall⟩

theorem collect_gathered (harena : ring.arena = none) (cursor maxRecords maxBytes : ℕ)
    (out : List Record) :
    ∃ ds, ring.Gathered cursor out (ring.collect cursor maxRecords maxBytes out) ds := by
  obtain ⟨ds, -, h⟩ := collectLoop_gathered harena cursor maxBytes maxRecords out []
    (.refl ring cursor)
  rw [List.map_nil, List.append_nil] at h
  exact ⟨ds, h⟩

theorem lingerLoop_gathered (harena : ring.arena = none) (cursor maxRecords maxBytes : ℕ) :
    ∀ (rounds : ℕ) (got : Collected × List Record) (ds : List (Payload w UInt8)),
      ring.Gathered cursor [] got ds →
      ∃ ds', ds.length ≤ ds'.length ∧ ring.Gathered cursor []
        (ring.lingerLoop cursor maxRecords maxBytes rounds got) ds' := by
  intro rounds
  induction rounds with
  | zero => exact fun got ds h => ⟨ds, le_refl _, h⟩
  | succ rounds ih =>
    intro got ds h
    rw [lingerLoop]
    split_ifs
    · exact ⟨ds, le_refl _, h⟩
    · obtain ⟨es, hmore⟩ := collect_gathered harena (cursor + got.1.count)
        (maxRecords - got.1.count) maxBytes got.2
      obtain ⟨ds', hle, hall⟩ := ih _ (ds ++ es) (h.append hmore)
      rw [List.length_append] at hle
      exact ⟨ds', by omega, hall⟩

/-- A `collect` that may gather a record and gathers none found the slot stale or overwritten. -/
theorem collect_count_eq_zero (harena : ring.arena = none) {cursor maxRecords maxBytes : ℕ}
    {out : List Record} (hmax : 0 < maxRecords)
    (h : (ring.collect cursor maxRecords maxBytes out).1.count = 0) :
    readSlot (ring.slot cursor) cursor = .pending ∨
      ∃ seen, readSlot (ring.slot cursor) cursor = .overwritten seen ∧
        (ring.collect cursor maxRecords maxBytes out).1.lapped = some seen := by
  obtain ⟨left, rfl⟩ : ∃ left, maxRecords = left + 1 := ⟨maxRecords - 1, by omega⟩
  unfold collect at h ⊢
  rw [collectLoop, readRecord_eq harena] at h ⊢
  rw [Nat.add_zero] at h ⊢
  cases hread : readSlot (ring.slot cursor) cursor with
  | pending => exact .inl rfl
  | overwritten seen => exact .inr ⟨seen, rfl, rfl⟩
  | item d =>
    -- the first record is always gathered, however long it is
    rw [hread] at h
    obtain ⟨es, hle, hes⟩ := collectLoop_gathered harena cursor maxBytes left out [d]
      (.item (hop_of_item hread))
    simp only [collectTurn, Nat.lt_irrefl, false_and, if_false] at h
    split_ifs at h
    have hcount := hes.count
    simp only [List.length_singleton, List.map_singleton] at hle hcount
    rw [h] at hcount
    omega

theorem collectLingering_gathered (harena : ring.arena = none) (cursor : ℕ) {maxRecords : ℕ}
    (maxBytes rounds : ℕ) (hmax : 0 < maxRecords) :
    ∃ ds, ring.Gathered cursor [] (ring.collectLingering cursor maxRecords maxBytes rounds) ds ∧
      (ds = [] → readSlot (ring.slot cursor) cursor = .pending ∨
        ∃ seen, readSlot (ring.slot cursor) cursor = .overwritten seen ∧
          (ring.collectLingering cursor maxRecords maxBytes rounds).1.lapped = some seen) := by
  obtain ⟨ds, hfirst⟩ := collect_gathered harena cursor maxRecords maxBytes []
  unfold collectLingering
  simp only
  split_ifs with hstop
  · refine ⟨ds, hfirst, fun hnil => collect_count_eq_zero harena hmax ?_⟩
    rw [hfirst.count, hnil]
    rfl
  · obtain ⟨ds', hle, hall⟩ := lingerLoop_gathered harena cursor maxRecords maxBytes rounds _ ds
      hfirst
    refine ⟨ds', hall, fun hnil => absurd ?_ hstop⟩
    left
    rw [hnil, ← hfirst.count] at hle
    exact Nat.le_zero.mp hle

theorem Gathered.sent {cursor : ℕ} {got : Collected × List Record}
    (h : ring.Gathered cursor [] got ds) :
    (if 0 < got.1.count then [Sent.data cursor got.2] else []).flatMap Sent.records =
      ds.map plainRecord := by
  have hout : got.2 = ds.map plainRecord := h.out
  split_ifs with hpos
  · simp [Sent.records, hout]
  · have hnil : ds = [] := List.length_eq_zero_iff.mp (by rw [← h.count]; omega)
    rw [hnil]
    rfl

/-- **A turn of the server** follows the hops, and gets on where there is one. -/
theorem serveTurn_follows (harena : ring.arena = none) (batch rounds cursor : ℕ) :
    ∃ ds, (ring.serveTurn batch rounds cursor).1.flatMap Sent.records = ds.map plainRecord ∧
      ring.Follows cursor ds (ring.serveTurn batch rounds cursor).2 ∧
      (ring.hop cursor ≠ none → cursor < (ring.serveTurn batch rounds cursor).2) := by
  have hbatch : 0 < clampBatch batch := Nat.lt_of_lt_of_le Nat.one_pos (Nat.le_max_left _ _)
  obtain ⟨ds, hgot, hzero⟩ :=
    collectLingering_gathered harena cursor tcpFrameBytes rounds hbatch
  unfold serveTurn
  generalize ring.collectLingering cursor (clampBatch batch) tcpFrameBytes rounds = got at *
  have hsent := hgot.sent
  have hcount := hgot.count
  unfold answer
  generalize (if 0 < got.1.count then [Sent.data cursor got.2] else []) = sent at *
  simp only [hgot.lost, Bool.false_eq_true, if_false]
  cases hlapped : got.1.lapped with
  | none =>
    -- an empty batch means that there is nothing to read at the cursor
    refine ⟨ds, hsent, hgot.follows, fun hhop => ?_⟩
    by_contra hle
    have hnil : ds = [] := List.length_eq_zero_iff.mp (by simp only at hle; omega)
    rcases hzero hnil with hread | ⟨seen, -, hseen⟩
    · exact hhop (by rw [hop, hread])
    · rw [hlapped] at hseen
      cases hseen
  | some seen =>
    have hread := hgot.lapped seen hlapped
    have hhop : ring.hop (cursor + got.1.count) =
        if cursor + got.1.count < ring.resync seen then some (none, ring.resync seen)
        else none := by
      rw [hop, hread]
    -- after the records, a `GAP` if the resynchronization leads forward
    by_cases hlt : cursor + got.1.count < ring.resync seen
    · rw [if_pos hlt] at hhop
      simp only [if_pos hlt]
      refine ⟨ds, ?_, ?_, fun _ => by omega⟩
      · rw [List.flatMap_append, hsent]
        simp [Sent.records]
      · rw [← List.append_nil ds]
        exact hgot.follows.trans (.jump hhop)
    · rw [if_neg hlt] at hhop
      simp only [if_neg hlt]
      refine ⟨ds, hsent, hgot.follows, fun hsome => ?_⟩
      by_contra hle
      have hc : cursor + got.1.count = cursor := by omega
      rw [hc] at hhop
      exact hsome hhop

/-- **The server sends the messages up to where the hops end, and stays there.** -/
theorem Path.serve (harena : ring.arena = none) (h : ring.Path p ds q) (batch : ℕ)
    (rounds : ℕ → ℕ) {n : ℕ} (hn : q ≤ p + n) :
    (ring.serve batch rounds p n).1.flatMap Sent.records = ds.map plainRecord ∧
      (ring.serve batch rounds p n).2 = q := by
  -- each turn gets on until the path ends, so `q - p` turns are enough
  have hrun : ∀ n, ∃ es, (ring.serve batch rounds p n).1.flatMap Sent.records =
      es.map plainRecord ∧ ring.Follows p es (ring.serve batch rounds p n).2 ∧
      ((ring.serve batch rounds p n).2 = q ∨ p + n ≤ (ring.serve batch rounds p n).2) := by
    intro n
    induction n with
    | zero => exact ⟨[], rfl, .refl ring p, .inr (le_refl p)⟩
    | succ n ih =>
      obtain ⟨es, hsent, hfollows, hcursor⟩ := ih
      obtain ⟨es', hsent', hfollows', hgets⟩ := ring.serveTurn_follows harena batch (rounds n)
        (ring.serve batch rounds p n).2
      refine ⟨es ++ es', ?_, hfollows.trans hfollows', ?_⟩
      · rw [SourceRing.serve, List.flatMap_append, hsent, hsent', List.map_append]
      · obtain ⟨rest, -, hrest⟩ := hfollows.path h
        obtain ⟨rest', -, hrest'⟩ := hfollows'.path hrest
        rw [SourceRing.serve]
        by_cases hhop : ring.hop (ring.serve batch rounds p n).2 = none
        · obtain ⟨-, hq⟩ := hrest.eq_of_hop hhop
          left
          exact le_antisymm hrest'.le (hq.le.trans hfollows'.le)
        · have hlt := hgets hhop
          have hle := hrest'.le
          rcases hcursor with hq | hle'
          · simp only
            omega
          · right
            simp only
            omega
  obtain ⟨es, hsent, hfollows, hcursor⟩ := hrun n
  obtain ⟨rest, hds, hrest⟩ := hfollows.path h
  have hq : (ring.serve batch rounds p n).2 = q := by
    have := hrest.le
    omega
  rw [hq] at hrest
  obtain ⟨rfl, -⟩ := hrest.eq_of_hop h.hop_end
  rw [hsent, hds, List.append_nil]
  exact ⟨rfl, hq⟩

/-! ## The consumer -/

/-- A consumer of the ring at sequence `p`. -/
structure Reads (ring : SourceRing w) (c : RingConsumer w UInt8) (p : ℕ) : Prop where
  multiProducer : c.multiProducer = ring.multiProducer
  sparse : c.sparse = ring.sparse
  cursor : c.cursor = p

/-- A turn of the loop of `next_item` on the ring. -/
abbrev turnOf (ring : SourceRing w) (c : RingConsumer w UInt8) :
    Turn (Payload w UInt8) × RingConsumer w UInt8 :=
  c.turn ring.cap ring.slots ring.writeSeq

variable {c : RingConsumer w UInt8}

theorem Reads.turn_item (h : ring.Reads c p) {d : Payload w UInt8}
    (hhop : ring.hop p = some (some d, p')) :
    ∃ c', ring.turnOf c = (.item d, c') ∧ ring.Reads c' p' := by
  obtain ⟨hm, hsp, rfl⟩ := h
  obtain ⟨hread, rfl⟩ := hop_eq_item hhop
  unfold turnOf RingConsumer.turn
  rw [slot] at hread
  rw [hread]
  exact ⟨_, rfl, hm, hsp, rfl⟩

theorem Reads.turn_jump (h : ring.Reads c p) (hhop : ring.hop p = some (none, p')) :
    ∃ n c', ring.turnOf c = (.skip n, c') ∧ ring.Reads c' p' := by
  obtain ⟨hm, hsp, rfl⟩ := h
  obtain ⟨seen, hread, hlt, rfl⟩ := hop_eq_jump hhop
  have hskip : c.skipOverwrittenNow ring.cap ring.writeSeq seen =
      (ring.resync seen - c.cursor, { c with toAccount := c.toAccount.lap (ring.resync seen) }) := by
    rw [RingConsumer.skipOverwrittenNow, Account.skipOverwritten]
    rw [resync] at hlt ⊢
    rw [if_pos hlt]
  unfold turnOf RingConsumer.turn
  rw [slot] at hread
  rw [hread]
  simp only [hskip]
  rw [if_neg (by omega)]
  exact ⟨_, _, rfl, hm, hsp, rfl⟩

/-- `skip_hole` at sequence `p` of a sparse ring. -/
theorem skipHole_eq (ring : SourceRing w) (h : c.cursor = p) :
    (p ≤ ring.writeSeq ∧ (ring.slot p).seq ≠ slotWriting ∧ (ring.slot p).seq < p ∧
        ∃ n target, 0 < n ∧ p < target ∧ c.skipHole ring.cap ring.slots ring.writeSeq =
          (n, { c with toAccount := c.toAccount.lap target })) ∨
      (¬ (p ≤ ring.writeSeq ∧ (ring.slot p).seq ≠ slotWriting ∧ (ring.slot p).seq < p) ∧
        c.skipHole ring.cap ring.slots ring.writeSeq = (0, c)) := by
  subst h
  unfold slot RingConsumer.skipHole Account.skipHole
  simp only
  by_cases hws : ring.writeSeq < c.cursor
  · rw [if_pos hws]
    exact .inr ⟨fun hs => by omega, rfl⟩
  · rw [if_neg hws]
    by_cases hseen : (ring.slots (slotIndex ring.cap c.cursor)).seq = slotWriting ∨
        c.cursor ≤ (ring.slots (slotIndex ring.cap c.cursor)).seq
    · rw [if_pos hseen]
      exact .inr ⟨fun hs => by omega, rfl⟩
    · rw [if_neg hseen]
      obtain ⟨hmark, hlt⟩ := not_or.mp hseen
      have hle := le_nextPresent ring.cap (fun i => (ring.slots i).seq)
        (ring.writeSeq + 1 - max (oldestRetained ring.writeSeq ring.cap.val) (c.cursor + 1))
        (max (oldestRetained ring.writeSeq ring.cap.val) (c.cursor + 1))
      exact .inl ⟨by omega, hmark, by omega, _, _, by omega, by omega, rfl⟩

/-- Where a consumer does not skip, it stays when there is no hop. -/
theorem Reads.turn_stay (h : ring.Reads c p) (hhop : ring.hop p = none) (hskip : ¬ ring.Skips p) :
    ∃ c', ring.turnOf c = (.empty, c') ∧ ring.Reads c' p := by
  obtain ⟨hm, hsp, rfl⟩ := h
  unfold hop at hhop
  unfold turnOf RingConsumer.turn
  split at hhop
  · cases hhop
  -- overwritten, but there is nothing to skip to
  · next seen hread =>
    split_ifs at hhop with hlt
    rw [slot] at hread
    have hstay : c.skipOverwrittenNow ring.cap ring.writeSeq seen = (0, c) := by
      rw [RingConsumer.skipOverwrittenNow, Account.skipOverwritten]
      rw [resync] at hlt
      rw [if_neg hlt]
    rw [hread]
    simp only [hstay, if_true]
    exact ⟨_, rfl, hm, hsp, rfl⟩
  · next hread =>
    unfold Skips at hskip
    rw [hread] at hskip
    rw [slot] at hread
    rw [hread]
    simp only [hm, hsp]
    -- pending: neither a full ring behind nor in front of a hole
    by_cases hmulti : ring.multiProducer = true
    · rw [if_pos hmulti] at hskip ⊢
      rw [if_neg fun hle => hskip ⟨rfl, hle⟩]
      exact ⟨_, rfl, hm, hsp, rfl⟩
    · rw [if_neg hmulti] at hskip ⊢
      by_cases hsparse : ring.sparse = true
      · rw [if_pos hsparse]
        by_cases hpoll : (c.emptyPolls + 1) % 2 ^ 32 &&& 63 = 0
        · rw [if_pos hpoll]
          rcases skipHole_eq ring (c := { c with emptyPolls := (c.emptyPolls + 1) % 2 ^ 32 }) rfl with
            ⟨h₁, h₂, h₃, -⟩ | ⟨-, heq⟩
          · exact absurd ⟨hsparse, h₁, h₂, h₃⟩ hskip
          · simp only [hm, hsp] at heq
            simp only [heq, Nat.lt_irrefl, if_false]
            exact ⟨_, rfl, rfl, rfl, rfl⟩
        · rw [if_neg hpoll]
          exact ⟨_, rfl, rfl, rfl, rfl⟩
      · rw [if_neg hsparse]
        exact ⟨_, rfl, hm, hsp, rfl⟩

/-- Where a consumer skips, it goes on at once on a multi-producer ring, and on a sparse ring with
every 64th poll. -/
theorem Reads.turn_skips (h : ring.Reads c p) (hskip : ring.Skips p) :
    (∃ n c' p', ring.turnOf c = (.skip n, c') ∧ ring.Reads c' p' ∧ p < p') ∨
      ((c.emptyPolls + 1) % 64 ≠ 0 ∧ ∃ c', ring.turnOf c = (.empty, c') ∧ ring.Reads c' p ∧
        c'.emptyPolls = (c.emptyPolls + 1) % 2 ^ 32) := by
  obtain ⟨hm, hsp, rfl⟩ := h
  unfold Skips at hskip
  unfold turnOf RingConsumer.turn
  -- several producers a full ring ahead, or a hole of a sparse ring on a 64th poll
  by_cases hmulti : ring.multiProducer = true
  · rw [if_pos hmulti, slot] at hskip
    have hlt : c.cursor < oldestRetained (max ring.writeSeq 0) ring.cap.val := by
      have := hskip.2
      have := ring.cap.pos
      rw [Nat.max_zero]
      unfold oldestRetained
      rw [if_pos (by omega)]
      omega
    rw [hskip.1]
    simp only [hm, hmulti, if_true]
    rw [if_pos hskip.2, RingConsumer.skipOverwrittenNow, Account.skipOverwritten, if_pos hlt]
    exact .inl ⟨_, _, _, rfl, ⟨hm, hsp, rfl⟩, hlt⟩
  · rw [if_neg hmulti] at hskip
    obtain ⟨hsparse, hws, hmark, hlt⟩ := hskip
    have hread : readSlot (ring.slots (slotIndex ring.cap c.cursor)) c.cursor = .pending := by
      rw [slot] at hlt
      rw [readSlot_eq, if_neg (by omega), if_pos (.inr hlt)]
    rw [hread]
    simp only [hm, hsp, hsparse, if_true]
    rw [if_neg hmulti]
    have hmask : (c.emptyPolls + 1) % 2 ^ 32 &&& 63 = (c.emptyPolls + 1) % 64 := by
      rw [show (63 : ℕ) = 2 ^ 6 - 1 from rfl, Nat.and_two_pow_sub_one_eq_mod]
      omega
    rw [hmask]
    by_cases hpoll : (c.emptyPolls + 1) % 64 = 0
    · rw [if_pos hpoll]
      rcases skipHole_eq ring (c := { c with emptyPolls := (c.emptyPolls + 1) % 2 ^ 32 }) rfl with
        ⟨-, -, -, n, target, hn, htarget, heq⟩ | ⟨hno, -⟩
      · simp only [hm, hsp, hsparse] at heq
        simp only [heq, if_pos hn]
        exact .inl ⟨_, _, _, rfl, ⟨rfl, hsparse.symm, rfl⟩, htarget⟩
      · exact absurd ⟨hws, hmark, hlt⟩ hno
    · rw [if_neg hpoll]
      exact .inr ⟨hpoll, _, rfl, ⟨rfl, hsparse.symm, rfl⟩, rfl⟩

/-- A turn never goes back, and gets on unless it ends the poll. -/
theorem Reads.turn_le (h : ring.Reads c p) : ∃ t c' p', ring.turnOf c = (t, c') ∧
    ring.Reads c' p' ∧ p ≤ p' ∧ (t ≠ .empty → p < p') := by
  cases hhop : ring.hop p with
  | some next =>
    obtain ⟨r, p'⟩ := next
    have hlt := lt_of_hop hhop
    cases r with
    | some d =>
      obtain ⟨c', hturn, hc'⟩ := h.turn_item hhop
      exact ⟨_, c', p', hturn, hc', hlt.le, fun _ => hlt⟩
    | none =>
      obtain ⟨n, c', hturn, hc'⟩ := h.turn_jump hhop
      exact ⟨_, c', p', hturn, hc', hlt.le, fun _ => hlt⟩
  | none =>
    by_cases hskip : ring.Skips p
    · rcases h.turn_skips hskip with ⟨n, c', p', hturn, hc', hlt⟩ | ⟨-, c', hturn, hc', -⟩
      · exact ⟨_, c', p', hturn, hc', hlt.le, fun _ => hlt⟩
      · exact ⟨_, c', p, hturn, hc', le_refl p, fun hne => absurd rfl hne⟩
    · obtain ⟨c', hturn, hc'⟩ := h.turn_stay hhop hskip
      exact ⟨_, c', p, hturn, hc', le_refl p, fun hne => absurd rfl hne⟩

/-- `next_item` on the ring. -/
abbrev nextOf (ring : SourceRing w) (fuel : ℕ) (c : RingConsumer w UInt8) (skipped : ℕ) :
    Option (Option (Payload w UInt8) × ℕ × RingConsumer w UInt8) :=
  c.nextItem ring.cap ring.slots ring.writeSeq fuel skipped

theorem nextOf_item {d : Payload w UInt8} {c' : RingConsumer w UInt8}
    (h : ring.turnOf c = (.item d, c')) (fuel skipped : ℕ) :
    ring.nextOf (fuel + 1) c skipped = some (some d, skipped, c') := by
  unfold turnOf at h
  unfold nextOf
  rw [RingConsumer.nextItem, h]

theorem nextOf_empty {c' : RingConsumer w UInt8} (h : ring.turnOf c = (.empty, c'))
    (fuel skipped : ℕ) : ring.nextOf (fuel + 1) c skipped = some (none, skipped, c') := by
  unfold turnOf at h
  unfold nextOf
  rw [RingConsumer.nextItem, h]

theorem nextOf_skip {n : ℕ} {c' : RingConsumer w UInt8} (h : ring.turnOf c = (.skip n, c'))
    (fuel skipped : ℕ) :
    ring.nextOf (fuel + 1) c skipped = ring.nextOf fuel c' (skipped + n) := by
  unfold turnOf at h
  unfold nextOf
  rw [RingConsumer.nextItem, h]

/-- `n` calls of `recv_status` on the ring. -/
abbrev pollOf (ring : SourceRing w) (fuel n : ℕ) (c : RingConsumer w UInt8) :
    Option (List (Payload w UInt8) × RingConsumer w UInt8) :=
  c.poll ring.cap ring.slots ring.writeSeq fuel n

theorem pollOf_item {d : Payload w UInt8} {skipped : ℕ} {c' : RingConsumer w UInt8} {fuel : ℕ}
    (h : ring.nextOf fuel c 0 = some (some d, skipped, c')) (n : ℕ) :
    ring.pollOf fuel (n + 1) c = (ring.pollOf fuel n c').map fun (ds, c'') => (d :: ds, c'') := by
  unfold nextOf at h
  unfold pollOf
  rw [RingConsumer.poll, RingConsumer.recvStatus, h]
  simp only [RingConsumer.statusOf]
  split_ifs <;> rfl

theorem pollOf_none {fuel : ℕ} (h : ring.nextOf fuel c 0 = none) (n : ℕ) :
    ring.pollOf fuel (n + 1) c = none := by
  unfold nextOf at h
  unfold pollOf
  rw [RingConsumer.poll, RingConsumer.recvStatus, h]

theorem pollOf_empty {skipped : ℕ} {c' : RingConsumer w UInt8} {fuel : ℕ}
    (h : ring.nextOf fuel c 0 = some (none, skipped, c')) (n : ℕ) :
    ring.pollOf fuel (n + 1) c = ring.pollOf fuel n c' := by
  unfold nextOf at h
  unfold pollOf
  rw [RingConsumer.poll, RingConsumer.recvStatus, h]

/-- A poll on the way to `q`, where the consumer does not skip: the next message is returned, or
there is none and the consumer stands at `q`. -/
theorem Path.nextOf (h : ring.Path p ds q) (hskip : ¬ ring.Skips q) :
    ∀ {c : RingConsumer w UInt8} (fuel skipped : ℕ), ring.Reads c p → q < p + fuel →
      (∃ n c', ds = [] ∧ ring.nextOf fuel c skipped = some (none, n, c') ∧ ring.Reads c' q) ∨
      ∃ d ds' n c' p', ds = d :: ds' ∧ ring.nextOf fuel c skipped = some (some d, n, c') ∧
        ring.Reads c' p' ∧ ring.Path p' ds' q ∧ p < p' := by
  induction h with
  | stop hhop =>
    intro c fuel skipped hc hfuel
    obtain ⟨left, rfl⟩ : ∃ left, fuel = left + 1 := ⟨fuel - 1, by omega⟩
    obtain ⟨c', hturn, hc'⟩ := hc.turn_stay hhop hskip
    exact .inl ⟨skipped, c', rfl, nextOf_empty hturn left skipped, hc'⟩
  | item hhop rest _ =>
    intro c fuel skipped hc hfuel
    have hle := rest.le
    have hlt := lt_of_hop hhop
    obtain ⟨left, rfl⟩ : ∃ left, fuel = left + 1 := ⟨fuel - 1, by omega⟩
    obtain ⟨c', hturn, hc'⟩ := hc.turn_item hhop
    exact .inr ⟨_, _, skipped, c', _, rfl, nextOf_item hturn left skipped, hc', rest, hlt⟩
  | jump hhop rest ih =>
    intro c fuel skipped hc hfuel
    have hle := rest.le
    have hlt := lt_of_hop hhop
    obtain ⟨left, rfl⟩ : ∃ left, fuel = left + 1 := ⟨fuel - 1, by omega⟩
    obtain ⟨n, c', hturn, hc'⟩ := hc.turn_jump hhop
    rw [nextOf_skip hturn]
    rcases ih hskip left (skipped + n) hc' (by omega) with
      hempty | ⟨d, ds', n', c'', p'', hds, hnext, hc'', hpath, hlt'⟩
    · exact .inl hempty
    · exact .inr ⟨d, ds', n', c'', p'', hds, hnext, hc'', hpath, hlt.trans hlt'⟩

/-- **A consumer that does not skip `q` returns the messages up to there, and stays.** -/
theorem Path.poll (h : ring.Path p ds q) (hskip : ¬ ring.Skips q) (hc : ring.Reads c p) {fuel : ℕ}
    (hfuel : q < p + fuel) {n : ℕ} (hn : ds.length < n) :
    ∃ c', ring.pollOf fuel n c = some (ds, c') ∧ ring.Reads c' q := by
  induction n generalizing c p ds with
  | zero => exact absurd hn (Nat.not_lt_zero _)
  | succ n ih =>
    have hle := h.le
    rcases h.nextOf hskip fuel 0 hc hfuel with ⟨k, c', rfl, hnext, hc'⟩ |
      ⟨d, ds', k, c', p', rfl, hnext, hc', hpath, hlt⟩
    · rw [pollOf_empty hnext]
      -- from now on every poll is empty
      cases n with
      | zero => exact ⟨c', rfl, hc'⟩
      | succ n => exact ih (.stop h.hop_end) hc' (by omega) (Nat.succ_pos n)
    · obtain ⟨c'', hpoll, hc''⟩ := ih hpath hc' (by omega) (Nat.lt_of_succ_lt_succ hn)
      rw [pollOf_item hnext, hpoll]
      exact ⟨c'', rfl, hc''⟩

/-! ## Where they part -/

/-- A consumer on the way to `q`, or past it. -/
def Tracks (ring : SourceRing w) (q : ℕ) (c : RingConsumer w UInt8) : Prop :=
  ∃ p, ring.Reads c p ∧ ((∃ ds, ring.Path p ds q) ∨ q < p)

/-- However often it is polled, the consumer returns nothing and does not move. -/
def Stuck (ring : SourceRing w) (fuel : ℕ) (c : RingConsumer w UInt8) : Prop :=
  ∀ n, ∃ c', ring.pollOf fuel n c = some ([], c') ∧ c'.cursor = c.cursor

theorem Tracks.turn {t : Turn (Payload w UInt8)} {c' : RingConsumer w UInt8}
    (h : ring.Tracks q c) (hturn : ring.turnOf c = (t, c')) : ring.Tracks q c' := by
  obtain ⟨p, hc, ⟨ds, hpath⟩ | hlt⟩ := h
  · cases hpath with
    | item hhop rest =>
      obtain ⟨c₁, hturn₁, hc₁⟩ := hc.turn_item hhop
      rw [hturn] at hturn₁
      cases hturn₁
      exact ⟨_, hc₁, .inl ⟨_, rest⟩⟩
    | jump hhop rest =>
      obtain ⟨n, c₁, hturn₁, hc₁⟩ := hc.turn_jump hhop
      rw [hturn] at hturn₁
      cases hturn₁
      exact ⟨_, hc₁, .inl ⟨_, rest⟩⟩
    | stop hhop =>
      obtain ⟨t₁, c₁, p₁, hturn₁, hc₁, hle, -⟩ := hc.turn_le
      rw [hturn] at hturn₁
      cases hturn₁
      rcases hle.eq_or_lt with heq | hlt
      · exact ⟨p₁, hc₁, .inl ⟨[], heq ▸ .stop hhop⟩⟩
      · exact ⟨p₁, hc₁, .inr hlt⟩
  · obtain ⟨t₁, c₁, p₁, hturn₁, hc₁, hle, -⟩ := hc.turn_le
    rw [hturn] at hturn₁
    cases hturn₁
    exact ⟨p₁, hc₁, .inr (hlt.trans_le hle)⟩

theorem Tracks.nextOf {fuel skipped n : ℕ} {r : Option (Payload w UInt8)}
    {c' : RingConsumer w UInt8} (h : ring.Tracks q c)
    (hnext : ring.nextOf fuel c skipped = some (r, n, c')) :
    ring.Tracks q c' ∧ c.cursor ≤ c'.cursor := by
  induction fuel generalizing c skipped with
  | zero => cases hnext
  | succ fuel ih =>
    obtain ⟨p, hc, -⟩ := id h
    obtain ⟨t, c₁, p₁, hturn, hc₁, hle, -⟩ := hc.turn_le
    have h₁ := h.turn hturn
    have hcur : c.cursor ≤ c₁.cursor := by rw [hc.cursor, hc₁.cursor]; exact hle
    cases t with
    | item d =>
      rw [nextOf_item hturn] at hnext
      cases hnext
      exact ⟨h₁, hcur⟩
    | empty =>
      rw [nextOf_empty hturn] at hnext
      cases hnext
      exact ⟨h₁, hcur⟩
    | skip k =>
      rw [nextOf_skip hturn] at hnext
      obtain ⟨h', hle'⟩ := ih h₁ hnext
      exact ⟨h', hcur.trans hle'⟩

theorem Tracks.poll {fuel n : ℕ} {es : List (Payload w UInt8)} {c' : RingConsumer w UInt8}
    (h : ring.Tracks q c) (hpoll : ring.pollOf fuel n c = some (es, c')) : ring.Tracks q c' := by
  induction n generalizing c es with
  | zero =>
    cases hpoll
    exact h
  | succ n ih =>
    cases hnext : ring.nextOf fuel c 0 with
    | none =>
      rw [pollOf_none hnext] at hpoll
      cases hpoll
    | some r =>
      obtain ⟨_ | d, skipped, c₁⟩ := r
      · rw [pollOf_empty hnext] at hpoll
        exact ih (h.nextOf hnext).1 hpoll
      · rw [pollOf_item hnext] at hpoll
        obtain ⟨⟨es', c₂⟩, hrest, heq⟩ := Option.map_eq_some_iff.mp hpoll
        cases heq
        exact ih (h.nextOf hnext).1 hrest

/-- A consumer whose next turn gets on is not stuck. -/
theorem Tracks.not_stuck {fuel : ℕ} {t : Turn (Payload w UInt8)} {c₁ : RingConsumer w UInt8}
    (h : ring.Tracks q c) (hturn : ring.turnOf c = (t, c₁)) (hne : t ≠ .empty) :
    ¬ ring.Stuck fuel c := by
  intro hstuck
  obtain ⟨c', hpoll, hcur⟩ := hstuck 1
  obtain ⟨left, rfl⟩ : ∃ left, fuel = left + 1 := by
    cases fuel with
    | zero => cases hpoll
    | succ left => exact ⟨left, rfl⟩
  cases t with
  | empty => exact hne rfl
  | item d =>
    rw [pollOf_item (nextOf_item hturn left 0)] at hpoll
    cases hpoll
  | skip k =>
    obtain ⟨p, hc, -⟩ := id h
    obtain ⟨t₂, c₂, p₂, hturn₂, hc₂, -, hlt⟩ := hc.turn_le
    rw [hturn] at hturn₂
    cases hturn₂
    have hlt' : c.cursor < c₁.cursor := by
      rw [hc.cursor, hc₂.cursor]
      exact hlt hne
    -- whatever the rest of the poll does, it does not go back
    cases hnext : ring.nextOf left c₁ (0 + k) with
    | none =>
      rw [← nextOf_skip hturn] at hnext
      rw [pollOf_none hnext] at hpoll
      cases hpoll
    | some r =>
      obtain ⟨d, skipped, c₃⟩ := r
      have hle := ((h.turn hturn).nextOf hnext).2
      rw [← nextOf_skip hturn] at hnext
      cases d with
      | some d =>
        rw [pollOf_item hnext] at hpoll
        cases hpoll
      | none =>
        rw [pollOf_empty hnext] at hpoll
        cases hpoll
        omega

/-- A consumer at `q` that skips it is not stuck: the 64th poll at the latest gets on. -/
theorem Reads.not_stuck {fuel : ℕ} (hhop : ring.hop q = none) (hskip : ring.Skips q) :
    ∀ (k : ℕ) {c : RingConsumer w UInt8}, ring.Reads c q → (c.emptyPolls + 1 + k) % 64 = 0 →
      ¬ ring.Stuck fuel c := by
  intro k
  induction k with
  | zero =>
    intro c hc hk
    have htracks : ring.Tracks q c := ⟨q, hc, .inl ⟨[], .stop hhop⟩⟩
    rcases hc.turn_skips hskip with ⟨n, c₁, p₁, hturn, -, -⟩ | ⟨hne, -⟩
    · exact htracks.not_stuck hturn (by rintro ⟨⟩)
    · exact absurd hk hne
  | succ k ih =>
    intro c hc hk hstuck
    have htracks : ring.Tracks q c := ⟨q, hc, .inl ⟨[], .stop hhop⟩⟩
    rcases hc.turn_skips hskip with ⟨n, c₁, p₁, hturn, -, -⟩ | ⟨-, c₁, hturn, hc₁, hpolls⟩
    · exact htracks.not_stuck hturn (by rintro ⟨⟩) hstuck
    · apply ih hc₁
      · rw [hpolls]
        omega
      · -- an empty poll leaves the consumer as stuck as it was
        intro n
        obtain ⟨c', hpoll, hcur⟩ := hstuck (n + 1)
        obtain ⟨left, rfl⟩ : ∃ left, fuel = left + 1 := by
          cases fuel with
          | zero => cases hpoll
          | succ left => exact ⟨left, rfl⟩
        rw [pollOf_empty (nextOf_empty hturn left 0)] at hpoll
        exact ⟨c', hpoll, by rw [hcur, hc.cursor, hc₁.cursor]⟩

theorem pollOf_add {fuel : ℕ} {c' : RingConsumer w UInt8} (k : ℕ) :
    ∀ {n : ℕ} {c : RingConsumer w UInt8} {es : List (Payload w UInt8)},
      ring.pollOf fuel n c = some (es, c') →
      ring.pollOf fuel (n + k) c = (ring.pollOf fuel k c').map fun (ds, c'') => (es ++ ds, c'') := by
  intro n
  induction n with
  | zero =>
    intro c es h
    cases h
    rw [Nat.zero_add]
    cases ring.pollOf fuel k c' <;> rfl
  | succ n ih =>
    intro c es h
    rw [Nat.add_right_comm]
    cases hnext : ring.nextOf fuel c 0 with
    | none =>
      rw [pollOf_none hnext] at h
      cases h
    | some r =>
      obtain ⟨_ | d, skipped, c₁⟩ := r
      · rw [pollOf_empty hnext] at h ⊢
        exact ih h
      · rw [pollOf_item hnext] at h ⊢
        obtain ⟨⟨es', c₂⟩, hrest, heq⟩ := Option.map_eq_some_iff.mp h
        cases heq
        rw [ih hrest, Option.map_map]
        rfl

/-! ## Serving as reading -/

theorem Skips.le_writeSeq (h : ring.Skips q) : q ≤ ring.writeSeq := by
  unfold Skips at h
  split_ifs at h
  · omega
  · exact h.2.1

end SourceRing

end Ringfire
