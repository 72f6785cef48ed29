import Ringfire.Foundation.Transition
import Ringfire.Ring.Producer

/-!
# The gate of a lossless ring

`refresh_gate`, `try_push` and `headroom` as functions of a registry that nobody changes while they
run, with the additions of `u64` as a release build computes them: they wrap around. A build that
checks them stops where `gateFits` fails. `tryPush_reaches` says that, where they do not wrap
around, the functions are what the producer of `RingProducer.step` does on its own.

## Main definitions

* `minCursor`, `pruneDeadReaders`: the scans of the registry
* `RingProducer.refreshGate`, `RingProducer.tryPush`, `RingProducer.headroom`
* `RingProducer.GateSound`: the gate only holds back for a reader that would be lapped, and no
  addition overflows

## Main results

* `RingProducer.tryPush_reaches`: `try_push`, taken one memory access at a time
* `RingProducer.gateSound_iff`: when the gate is sound
* `RingProducer.headroom_spec`: `headroom` is the number of messages `try_push` accepts
-/

namespace Ringfire

variable {w : ℕ} {ω : Type}

/-- A reader that `min_cursor` counts. -/
def ReaderSlot.Counts (r : ReaderSlot) : Prop := r.active = 1 ∧ r.pid ≠ 0

instance (r : ReaderSlot) : Decidable r.Counts := inferInstanceAs (Decidable (_ ∧ _))

/-- `min_cursor`, over the first `n` slots. -/
def minCursor (regs : ℕ → ReaderSlot) : ℕ → Option ℕ
  | 0 => none
  | n + 1 =>
    if (regs n).Counts then some (RingProducer.minSeq (minCursor regs n) (regs n).cursorSeq)
    else minCursor regs n

/-- `prune_dead_readers`, over the first `n` slots: how many slots it released. -/
def pruneDeadReaders (alive : ℕ → Bool) (regs : ℕ → ReaderSlot) : ℕ → ℕ × (ℕ → ReaderSlot)
  | 0 => (0, regs)
  | n + 1 =>
    let r := pruneDeadReaders alive regs n
    if (r.2 n).pid ≠ 0 ∧ alive (r.2 n).pid = false then
      (if (reclaim r.2 n (r.2 n).pid).1 then r.1 + 1 else r.1, (reclaim r.2 n (r.2 n).pid).2)
    else r

/-! ## Scanning the registry -/

section

variable {regs : ℕ → ReaderSlot} {alive : ℕ → Bool} {n m : ℕ}

theorem minCursor_eq_none : minCursor regs n = none ↔ ∀ i < n, ¬ (regs i).Counts := by
  induction n with
  | zero => exact ⟨fun _ i hi => absurd hi (Nat.not_lt_zero i), fun _ => rfl⟩
  | succ n ih =>
    unfold minCursor
    split_ifs with hcounts
    · exact ⟨fun h => h.elim, fun h => absurd hcounts (h n (Nat.lt_succ_self n))⟩
    · rw [ih]
      constructor
      · intro h i hi
        rcases Nat.lt_succ_iff_lt_or_eq.mp hi with hlt | rfl
        · exact h i hlt
        · exact hcounts
      · exact fun h i hi => h i (Nat.lt_succ_of_lt hi)

/-- The minimum is the cursor of a reader, and no reader is behind it. -/
theorem minCursor_eq_some (h : minCursor regs n = some m) :
    (∃ i < n, (regs i).Counts ∧ (regs i).cursorSeq = m) ∧
      ∀ i < n, (regs i).Counts → m ≤ (regs i).cursorSeq := by
  induction n generalizing m with
  | zero => cases h
  | succ n ih =>
    unfold minCursor at h
    split_ifs at h with hcounts
    · cases hmin : minCursor regs n with
      | none =>
        rw [hmin] at h
        cases h
        refine ⟨⟨n, Nat.lt_succ_self n, hcounts, rfl⟩, fun i hi hi' => ?_⟩
        rcases Nat.lt_succ_iff_lt_or_eq.mp hi with hlt | rfl
        · exact absurd hi' (minCursor_eq_none.mp hmin i hlt)
        · exact le_refl _
      | some k =>
        rw [hmin] at h
        cases h
        obtain ⟨⟨j, hj, hj', hjk⟩, hall⟩ := ih hmin
        constructor
        · -- the smaller of the two is the cursor of its reader
          rcases le_total k (regs n).cursorSeq with hle | hle
          · exact ⟨j, Nat.lt_succ_of_lt hj, hj', hjk.trans (Nat.min_eq_left hle).symm⟩
          · exact ⟨n, Nat.lt_succ_self n, hcounts, (Nat.min_eq_right hle).symm⟩
        · intro i hi hi'
          rcases Nat.lt_succ_iff_lt_or_eq.mp hi with hlt | rfl
          · exact (Nat.min_le_left _ _).trans (hall i hlt hi')
          · exact Nat.min_le_right _ _
    · obtain ⟨⟨j, hj, hj'⟩, hall⟩ := ih h
      refine ⟨⟨j, Nat.lt_succ_of_lt hj, hj'⟩, fun i hi hi' => ?_⟩
      rcases Nat.lt_succ_iff_lt_or_eq.mp hi with hlt | rfl
      · exact hall i hlt hi'
      · exact absurd hi' hcounts

/-- Nothing is released while every owner is alive. -/
theorem pruneDeadReaders_alive (h : ∀ i < n, (regs i).pid ≠ 0 → alive (regs i).pid = true) :
    pruneDeadReaders alive regs n = (0, regs) := by
  induction n with
  | zero => rfl
  | succ n ih =>
    have hprev := ih fun i hi => h i (Nat.lt_succ_of_lt hi)
    simp only [pruneDeadReaders, hprev]
    rw [if_neg]
    rintro ⟨hpid, hdead⟩
    rw [h n (Nat.lt_succ_self n) hpid] at hdead
    cases hdead

end

/-! ## The functions -/

namespace RingProducer

/-- How far ahead `refresh_gate` lets the producer go without another scan. -/
def rescanWindow (cap : Capacity) : ℕ := Nat.max (cap.val / 2) 1

/-- The limit `refresh_gate` computes, in additions that wrap around. -/
def wrappedLimit (cap : Capacity) (seq : ℕ) (min : Option ℕ) : ℕ :=
  match min with
  | some m => Nat.min ((m + cap.val) % 2 ^ 64) ((seq + rescanWindow cap) % 2 ^ 64)
  | none => (seq + rescanWindow cap) % 2 ^ 64

/-- `refresh_gate`. -/
def refreshGate (cap : Capacity) (n : ℕ) (regs : ℕ → ReaderSlot) (p : RingProducer w ω) :
    Bool × RingProducer w ω :=
  let limit := wrappedLimit cap p.seq (minCursor regs n)
  (p.seq < limit, { p with gateLimit := limit })

/-- `write_one` and `publish_progress`, and what `try_push` returns after them. -/
def pushNow (cap : Capacity) (m : Shared w ω) (p : RingProducer w ω) (item : Payload w ω) :
    Bool × Shared w ω × RingProducer w ω :=
  let seq := (p.seq + 1) % 2 ^ 64
  (true,
    { m with
      slots := Function.update m.slots (slotIndex cap p.seq) ⟨p.seq, item⟩
      writeSeq := (seq + 2 ^ 64 - 1) % 2 ^ 64 },
    { p with seq := seq, tryResult := some true, pushed := p.pushed ++ [item] })

/-- `BackpressureBufferFull`. -/
def refuse (m : Shared w ω) (p : RingProducer w ω) : Bool × Shared w ω × RingProducer w ω :=
  (false, m, { p with tryResult := some false })

/-- `try_push`, over a registry of `n` slots: whether it returns `Ok`. -/
def tryPush (cap : Capacity) (n : ℕ) (alive : ℕ → Bool) (m : Shared w ω) (p : RingProducer w ω)
    (item : Payload w ω) : Bool × Shared w ω × RingProducer w ω :=
  if p.gated = false then pushNow cap m p item
  else
    let r := p.refreshGate cap n m.regs
    if r.1 then pushNow cap m r.2 item
    else
      let q : RingProducer w ω := { r.2 with blockedPolls := (p.blockedPolls + 1) % 2 ^ 32 }
      -- every 1024th refusal prunes the registry and tries once more
      if q.blockedPolls % 1024 = 0 then
        let pruned := pruneDeadReaders alive m.regs n
        let m := { m with regs := pruned.2 }
        if 0 < pruned.1 then
          let r := q.refreshGate cap n m.regs
          if r.1 then pushNow cap m r.2 item else refuse m r.2
        else refuse m q
      else refuse m q

/-- `headroom`: the slots of dead readers are released on the way. -/
def headroom (cap : Capacity) (n : ℕ) (alive : ℕ → Bool) (m : Shared w ω) (p : RingProducer w ω) :
    ℕ × Shared w ω :=
  let regs := (pruneDeadReaders alive m.regs n).2
  (match minCursor regs n with
    | some min => cap.val - (p.seq - 1 - (min - 1))
    | none => cap.val,
    { m with regs := regs })

/-- `try_push` for one message after another: what the calls return. -/
def tryPushAll (cap : Capacity) (n : ℕ) (alive : ℕ → Bool) (m : Shared w ω) (p : RingProducer w ω) :
    List (Payload w ω) → List Bool × Shared w ω × RingProducer w ω
  | [] => ([], m, p)
  | item :: items =>
    let r := p.tryPush cap n alive m item
    let rest := tryPushAll cap n alive r.2.1 r.2.2 items
    (r.1 :: rest.1, rest.2)

variable {cap : Capacity} {n : ℕ} {alive : ℕ → Bool} {regs : ℕ → ReaderSlot} {m : Shared w ω}
  {p : RingProducer w ω} {item : Payload w ω}

theorem one_le_rescanWindow (cap : Capacity) : 1 ≤ rescanWindow cap := Nat.le_max_right _ _

/-- Where no addition overflows, nothing wraps around. -/
theorem wrappedLimit_eq {seq : ℕ} {min : Option ℕ} (h : gateFits cap seq min) :
    wrappedLimit cap seq min = limit cap seq min := by
  obtain ⟨hseq, hmin⟩ := h
  have hwindow : (seq + rescanWindow cap) % 2 ^ 64 = seq + Nat.max (cap.val / 2) 1 :=
    Nat.mod_eq_of_lt (Nat.lt_of_le_of_lt hseq (by decide))
  cases min with
  | none => exact hwindow
  | some k =>
    have hk : (k + cap.val) % 2 ^ 64 = k + cap.val :=
      Nat.mod_eq_of_lt (Nat.lt_of_le_of_lt (hmin k rfl) (by decide))
    simp only [wrappedLimit, limit, hwindow, hk]

/-- The limit is never beyond the slowest reader, wrapped around or not. -/
theorem wrappedLimit_le (cap : Capacity) (seq k : ℕ) :
    wrappedLimit cap seq (some k) ≤ k + cap.val :=
  (Nat.min_le_left _ _).trans (Nat.mod_le _ _)

/-! ### One memory access at a time -/

/-- The producer on its own. -/
def soloStep (cap : Capacity) (n : ℕ) (alive : ℕ → Bool) (s : Shared w ω × RingProducer w ω)
    (a : ProducerLabel w ω) : Option (Shared w ω × RingProducer w ω) :=
  s.2.step cap n alive s.1 a

theorem soloStep_call (h : p.pc = .idle) (c : ProducerCall (Payload w ω)) :
    soloStep cap n alive (m, p) (.call c) = some (m, p.start c) := by
  unfold soloStep RingProducer.step
  rw [h]

theorem soloStep_entry (todo : List (Payload w ω)) :
    soloStep cap n alive (m, { p with pc := .entry todo }) .tick =
      some (m, ({ p with pc := .entry todo } : RingProducer w ω).enter n todo) := rfl

theorem soloStep_scanActive (k : GateReturn (Payload w ω)) (i : ℕ) (min : Option ℕ) :
    soloStep cap n alive (m, { p with pc := .scanActive k i min }) .tick =
      if i < n then
        if (m.regs i).active = 1 then some (m, { p with pc := .scanPid k i min })
        else some (m, { p with pc := .scanActive k (i + 1) min })
      else if gateFits cap p.seq min then
        some (m, ({ p with pc := .scanActive k i min } : RingProducer w ω).gate cap min k)
      else none := rfl

theorem soloStep_scanPid (k : GateReturn (Payload w ω)) (i : ℕ) (min : Option ℕ) :
    soloStep cap n alive (m, { p with pc := .scanPid k i min }) .tick =
      if (m.regs i).pid ≠ 0 then some (m, { p with pc := .scanCursor k i min })
      else some (m, { p with pc := .scanActive k (i + 1) min }) := rfl

theorem soloStep_pruneLoad (k : PruneReturn (Payload w ω)) (i count : ℕ) :
    soloStep cap n alive (m, { p with pc := .pruneLoad k i count }) .tick =
      if i < n then
        if (m.regs i).pid ≠ 0 ∧ alive (m.regs i).pid = false then
          some (m, { p with pc := .pruneReclaim k i (m.regs i).pid count })
        else some (m, { p with pc := .pruneLoad k (i + 1) count })
      else some (m, ({ p with pc := .pruneLoad k i count } : RingProducer w ω).pruned count k) := rfl

theorem soloStep_copy_word (left : Finset (Fin w)) (rest : List (Payload w ω)) (i : Fin w) :
    soloStep cap n alive (m, { p with pc := .copy item left rest }) (.word i) =
      if i ∈ left then
        some ({ m with slots := storeWord m.slots (slotIndex cap p.seq) i (item i) },
          { p with pc := .copy item (left.erase i) rest })
      else none := rfl

theorem soloStep_copy_tick (left : Finset (Fin w)) (rest : List (Payload w ω)) :
    soloStep cap n alive (m, { p with pc := .copy item left rest }) .tick =
      if left = ∅ ∧ p.seq + 1 ≤ u64Max then
        some ({ m with slots := storeSeq m.slots (slotIndex cap p.seq) p.seq },
          { p with seq := p.seq + 1, pc := .entry rest })
      else none := rfl

/-- The scan of `refresh_gate` finds the slowest reader. -/
theorem scan_reaches (k : GateReturn (Payload w ω)) {i : ℕ} (hi : i ≤ n) :
    Transition.Reaches (soloStep cap n alive) (m, { p with pc := .scanActive k 0 none })
      (m, { p with pc := .scanActive k i (minCursor m.regs i) }) := by
  induction i with
  | zero => exact .refl _
  | succ i ih =>
    refine (ih (Nat.le_of_succ_le hi)).trans ?_
    rw [minCursor]
    by_cases hactive : (m.regs i).active = 1
    · have hload : soloStep cap n alive (m, { p with pc := .scanActive k i (minCursor m.regs i) })
          .tick = some (m, { p with pc := .scanPid k i (minCursor m.regs i) }) := by
        rw [soloStep_scanActive, if_pos (Nat.lt_of_succ_le hi), if_pos hactive]
      refine (Transition.Reaches.single hload).trans ?_
      by_cases hpid : (m.regs i).pid = 0
      · rw [if_neg fun hcounts => hcounts.2 hpid]
        refine Transition.Reaches.single (a := .tick) ?_
        rw [soloStep_scanPid, if_neg (not_not.mpr hpid)]
      · rw [if_pos ⟨hactive, hpid⟩]
        have howned : soloStep cap n alive (m, { p with pc := .scanPid k i (minCursor m.regs i) })
            .tick = some (m, { p with pc := .scanCursor k i (minCursor m.regs i) }) := by
          rw [soloStep_scanPid, if_pos hpid]
        exact (Transition.Reaches.single howned).trans (Transition.Reaches.single (a := .tick) rfl)
    · rw [if_neg fun hcounts => hactive hcounts.1]
      refine Transition.Reaches.single (a := .tick) ?_
      rw [soloStep_scanActive, if_pos (Nat.lt_of_succ_le hi), if_neg hactive]

/-- `prune_dead_readers` releases the slots of the dead. -/
theorem prune_reaches (k : PruneReturn (Payload w ω)) {i : ℕ} (hi : i ≤ n) :
    Transition.Reaches (soloStep cap n alive) (m, { p with pc := .pruneLoad k 0 0 })
      ({ m with regs := (pruneDeadReaders alive m.regs i).2 },
        { p with pc := .pruneLoad k i (pruneDeadReaders alive m.regs i).1 }) := by
  induction i with
  | zero => exact .refl _
  | succ i ih =>
    refine (ih (Nat.le_of_succ_le hi)).trans ?_
    simp only [pruneDeadReaders]
    generalize pruneDeadReaders alive m.regs i = r
    by_cases hdead : (r.2 i).pid ≠ 0 ∧ alive (r.2 i).pid = false
    · rw [if_pos hdead]
      have hload : soloStep cap n alive
          ({ m with regs := r.2 }, { p with pc := .pruneLoad k i r.1 }) .tick =
          some ({ m with regs := r.2 },
            { p with pc := .pruneReclaim k i (r.2 i).pid r.1 }) := by
        rw [soloStep_pruneLoad, if_pos (Nat.lt_of_succ_le hi), if_pos hdead]
      exact (Transition.Reaches.single hload).trans (Transition.Reaches.single (a := .tick) rfl)
    · rw [if_neg hdead]
      refine Transition.Reaches.single (a := .tick) ?_
      rw [soloStep_pruneLoad, if_pos (Nat.lt_of_succ_le hi), if_neg hdead]

/-- The words of a message are stored. -/
theorem copy_reaches (rest : List (Payload w ω)) (left : Finset (Fin w))
    (hdata : ∀ j, j ∉ left → (m.slots (slotIndex cap p.seq)).data j = item j) :
    Transition.Reaches (soloStep cap n alive) (m, { p with pc := .copy item left rest })
      ({ m with
          slots := Function.update m.slots (slotIndex cap p.seq)
            ⟨(m.slots (slotIndex cap p.seq)).seq, item⟩ },
        { p with pc := .copy item ∅ rest }) := by
  induction left using Finset.induction generalizing m with
  | empty =>
    have hslot : (⟨(m.slots (slotIndex cap p.seq)).seq, item⟩ : Slot w ω) =
        m.slots (slotIndex cap p.seq) := by
      have hall : (m.slots (slotIndex cap p.seq)).data = item :=
        funext fun j => hdata j (Finset.notMem_empty j)
      rw [← hall]
    rw [hslot, Function.update_eq_self]
    exact .refl _
  | insert j left hj ih =>
    have hstep : soloStep cap n alive (m, { p with pc := .copy item (insert j left) rest })
        (.word j) = some ({ m with slots := storeWord m.slots (slotIndex cap p.seq) j (item j) },
          { p with pc := .copy item left rest }) := by
      rw [soloStep_copy_word, if_pos (Finset.mem_insert_self j left), Finset.erase_insert hj]
    have hword := ih (m := { m with
        slots := storeWord m.slots (slotIndex cap p.seq) j (item j) }) fun i hi => by
      dsimp only
      rw [storeWord_self]
      rcases eq_or_ne i j with rfl | hne
      · exact Function.update_self _ _ _
      · dsimp only
        rw [Function.update_of_ne hne]
        exact hdata i fun hmem => (Finset.mem_insert.mp hmem).elim hne hi
    have hslots : Function.update (storeWord m.slots (slotIndex cap p.seq) j (item j))
        (slotIndex cap p.seq)
          ⟨(storeWord m.slots (slotIndex cap p.seq) j (item j) (slotIndex cap p.seq)).seq, item⟩ =
        Function.update m.slots (slotIndex cap p.seq)
          ⟨(m.slots (slotIndex cap p.seq)).seq, item⟩ := by
      rw [storeWord_self]
      exact Function.update_idem _ _ _
    dsimp only at hword
    rw [hslots] at hword
    exact (Transition.Reaches.single hstep).trans hword

/-- A message that has passed the gate is written and published. -/
theorem push_reaches (hidle : p.pc = .idle) (hgate : p.gated = false) (hseq : p.seq + 1 ≤ u64Max)
    (item : Payload w ω) :
    Transition.Reaches (soloStep cap n alive)
      (m, { p with tryResult := some true }.accept [item]) (pushNow cap m p item).2 := by
  -- `q` is the producer inside the call
  obtain ⟨q, hq⟩ : ∃ q : RingProducer w ω, q = { p with
    tryResult := some true, pushed := p.pushed ++ [item] } := ⟨_, rfl⟩
  have hqseq : q.seq = p.seq := by rw [hq]
  have hqgate : q.gated = false := by rw [hq]; exact hgate
  have hstart : { p with tryResult := some true }.accept [item] =
      { q with pc := .entry [item] } := by rw [hq]; rfl
  have henter : soloStep cap n alive (m, { q with pc := .entry [item] }) .tick =
      some (m, { q with pc := .mark item [] }) := by
    have hfree : ({ q with pc := .entry [item] } : RingProducer w ω).gated = false := hqgate
    rw [soloStep_entry]
    simp only [enter, hfree, Bool.false_eq_true, false_and, if_false]
  have hcopy : Transition.Reaches (soloStep cap n alive)
      ({ m with slots := storeSeq m.slots (slotIndex cap q.seq) slotWriting },
        { q with pc := .copy item Finset.univ [] }) _ :=
    copy_reaches [] Finset.univ fun j hj => absurd (Finset.mem_univ j) hj
  have hslots : storeSeq (Function.update (storeSeq m.slots (slotIndex cap q.seq) slotWriting)
      (slotIndex cap q.seq)
        ⟨(storeSeq m.slots (slotIndex cap q.seq) slotWriting (slotIndex cap q.seq)).seq, item⟩)
      (slotIndex cap q.seq) q.seq =
      Function.update m.slots (slotIndex cap q.seq) ⟨q.seq, item⟩ := by
    simp only [storeSeq, Function.update_idem, Function.update_self]
  have hcommit (slots : ℕ → Slot w ω) : soloStep cap n alive
      ({ m with slots := slots }, { q with pc := .copy item ∅ [] }) .tick =
      some ({ m with slots := storeSeq slots (slotIndex cap q.seq) q.seq },
        { q with seq := q.seq + 1, pc := .entry [] }) := by
    rw [soloStep_copy_tick, hqseq, if_pos ⟨rfl, hseq⟩]
  have hlast : pushNow cap m p item =
      (true, { m with
        slots := Function.update m.slots (slotIndex cap q.seq) ⟨q.seq, item⟩
        writeSeq := q.seq + 1 - 1 }, { q with seq := q.seq + 1, pc := .idle }) := by
    have hlt : p.seq + 1 < 2 ^ 64 := Nat.lt_of_le_of_lt hseq (by decide)
    have hpred : (p.seq + 1 + 2 ^ 64 - 1) % 2 ^ 64 = p.seq + 1 - 1 := by omega
    simp only [pushNow, hq, Nat.mod_eq_of_lt hlt, hpred, hidle]
  rw [hlast, hstart]
  refine (Transition.Reaches.single henter).trans ?_
  refine (Transition.Reaches.single (a := .tick) rfl).trans (hcopy.trans ?_)
  refine (Transition.Reaches.single (hcommit _)).trans ?_
  rw [hslots]
  -- the loop over the batch is done
  refine (Transition.Reaches.single (a := .tick) rfl).trans ?_
  exact Transition.Reaches.single (a := .tick) rfl

/-- `refresh_gate` scans, caches the limit and goes on with its caller. -/
theorem gate_reaches (k : GateReturn (Payload w ω))
    (hfits : gateFits cap p.seq (minCursor m.regs n)) :
    Transition.Reaches (soloStep cap n alive) (m, { p with pc := .scanActive k 0 none })
      (m, p.gate cap (minCursor m.regs n) k) := by
  refine (scan_reaches k (le_refl n)).trans (Transition.Reaches.single (a := .tick) ?_)
  have hpc : ({ p with pc := .scanActive k n (minCursor m.regs n) } : RingProducer w ω).gate cap
      (minCursor m.regs n) k = p.gate cap (minCursor m.regs n) k := by
    cases k <;> rfl
  rw [soloStep_scanActive, if_neg (lt_irrefl n), if_pos hfits, hpc]

/-- Once the gate is passed it stays open for the message. -/
theorem refreshGate_gated (h : (p.refreshGate cap n regs).1 = true) :
    (p.refreshGate cap n regs).2.gated = false := by
  simp only [refreshGate, decide_eq_true_eq] at h
  exact decide_eq_false fun hgated => absurd h (Nat.not_lt.mpr hgated.2)

/-- The second attempt of `try_push`, once slots of dead readers have been released. -/
theorem prune_then_push (hidle : p.pc = .idle) (hseq : p.seq + 1 ≤ u64Max)
    (hfits : gateFits cap p.seq (minCursor (pruneDeadReaders alive m.regs n).2 n))
    (hsome : 0 < (pruneDeadReaders alive m.regs n).1) (item : Payload w ω) :
    let m' := { m with regs := (pruneDeadReaders alive m.regs n).2 }
    let r := p.refreshGate cap n m'.regs
    Transition.Reaches (soloStep cap n alive)
      (m, { p with pc := .pruneLoad (.tryPush item) 0 0 })
      (if r.1 then pushNow cap m' r.2 item else refuse m' r.2).2 := by
  intro m' r
  have hlast : soloStep cap n alive
      (m', { p with pc := .pruneLoad (.tryPush item) n (pruneDeadReaders alive m.regs n).1 })
        .tick = some (m', { p with pc := .scanActive (.tryPushAgain item) 0 none }) := by
    rw [soloStep_pruneLoad, if_neg (lt_irrefl n), pruned, if_pos hsome]
  refine (prune_reaches _ (le_refl n)).trans ((Transition.Reaches.single hlast).trans ?_)
  refine (gate_reaches _ hfits).trans ?_
  by_cases hopen : p.seq < limit cap p.seq (minCursor m'.regs n)
  · have hrefresh : r.1 = true := by
      simp only [r, refreshGate, wrappedLimit_eq hfits, m', hopen, decide_true]
    have hgate : p.gate cap (minCursor m'.regs n) (.tryPushAgain item) =
        { r.2 with tryResult := some true }.accept [item] := by
      simp only [gate, if_pos hopen, r, refreshGate, wrappedLimit_eq hfits, m']
    rw [if_pos hrefresh, hgate]
    exact push_reaches (p := r.2) hidle (refreshGate_gated hrefresh) hseq item
  · have hrefresh : ¬ r.1 = true := by
      simp only [r, refreshGate, wrappedLimit_eq hfits, m', hopen, decide_false, Bool.false_eq_true,
        not_false_eq_true]
    rw [if_neg hrefresh]
    simp only [gate, if_neg hopen, refuse, r, refreshGate, wrappedLimit_eq hfits, m', hidle]
    exact .refl _

/-- **`try_push` is what the producer does on its own**, one memory access at a time, where no
addition overflows. -/
theorem tryPush_reaches (hidle : p.pc = .idle) (hseq : p.seq + 1 ≤ u64Max)
    (hfits : gateFits cap p.seq (minCursor m.regs n))
    (hagain : gateFits cap p.seq (minCursor (pruneDeadReaders alive m.regs n).2 n))
    (item : Payload w ω) :
    Transition.Reaches (soloStep cap n alive) (m, p) (p.tryPush cap n alive m item).2 := by
  have hcall : soloStep cap n alive (m, p) (.call (.tryPush item)) =
      some (m, p.start (.tryPush item)) := by
    rw [soloStep_call hidle]
  refine (Transition.Reaches.single hcall).trans ?_
  unfold tryPush
  cases hgated : p.gated with
  | false =>
    simp only [start, hgated, Bool.false_eq_true, if_false, if_true]
    exact push_reaches hidle hgated hseq item
  | true =>
    simp only [start, hgated, Bool.true_eq_false, if_false, if_true]
    refine (gate_reaches _ hfits).trans ?_
    by_cases hopen : p.seq < limit cap p.seq (minCursor m.regs n)
    · -- there is room
      have hrefresh : (p.refreshGate cap n m.regs).1 = true := by
        simp only [refreshGate, wrappedLimit_eq hfits, hopen, decide_true]
      have hgate : p.gate cap (minCursor m.regs n) (.tryPush item) =
          { (p.refreshGate cap n m.regs).2 with tryResult := some true }.accept [item] := by
        simp only [gate, if_pos hopen, refreshGate, wrappedLimit_eq hfits]
      rw [if_pos hrefresh, hgate]
      exact push_reaches (p := (p.refreshGate cap n m.regs).2) hidle (refreshGate_gated hrefresh)
        hseq item
    · have hrefresh : ¬ (p.refreshGate cap n m.regs).1 = true := by
        simp only [refreshGate, wrappedLimit_eq hfits, hopen, decide_false, Bool.false_eq_true,
          not_false_eq_true]
      rw [if_neg hrefresh]
      -- `q` has counted the refusal
      obtain ⟨q, hq⟩ : ∃ q : RingProducer w ω, q = { p with
        gateLimit := limit cap p.seq (minCursor m.regs n)
        blockedPolls := (p.blockedPolls + 1) % 2 ^ 32 } := ⟨_, rfl⟩
      have hqidle : q.pc = .idle := by rw [hq]; exact hidle
      have hqseq : q.seq = p.seq := by rw [hq]
      have hcount : { (p.refreshGate cap n m.regs).2 with blockedPolls := q.blockedPolls } = q := by
        simp only [hq, refreshGate, wrappedLimit_eq hfits]
      have hpolls : (p.blockedPolls + 1) % 2 ^ 32 = q.blockedPolls := by rw [hq]
      have hgate : p.gate cap (minCursor m.regs n) (.tryPush item) =
          if q.blockedPolls % 1024 = 0 then { q with pc := .pruneLoad (.tryPush item) 0 0 }
          else { q with pc := .idle, tryResult := some false } := by
        simp only [gate, if_neg hopen, hq]
      rw [hgate]
      simp only [hpolls, hcount]
      rw [← hqseq] at hagain hseq
      by_cases hprune : q.blockedPolls % 1024 = 0
      · rw [if_pos hprune, if_pos hprune]
        by_cases hreleased : 0 < (pruneDeadReaders alive m.regs n).1
        · rw [if_pos hreleased]
          exact prune_then_push hqidle hseq hagain hreleased item
        · rw [if_neg hreleased]
          refine (prune_reaches _ (le_refl n)).trans (Transition.Reaches.single (a := .tick) ?_)
          rw [soloStep_pruneLoad, if_neg (lt_irrefl n), pruned, if_neg hreleased, refuse, hqidle]
      · rw [if_neg hprune, if_neg hprune, refuse, hqidle]
        exact .refl _

/-! ### The sound gate -/

/-- **The gate is sound**: no addition of `refresh_gate` overflows, and it refuses a message, and
`try_push` with it, only for a reader that the message would lap. -/
structure GateSound (cap : Capacity) (n : ℕ) (m : Shared w ω) (p : RingProducer w ω) : Prop where
  fits : gateFits cap p.seq (minCursor m.regs n)
  refused : (p.refreshGate cap n m.regs).1 = false →
    ∃ i < n, (m.regs i).Counts ∧ (m.regs i).cursorSeq + cap.val ≤ p.seq
  tryRefused : ∀ alive item, (p.tryPush cap n alive m item).1 = false →
    ∃ i < n, (m.regs i).Counts ∧ (m.regs i).cursorSeq + cap.val ≤ p.seq

/-- `try_push` is refused only when `refresh_gate` refuses. -/
theorem refreshGate_of_refused (h : (p.tryPush cap n alive m item).1 = false) :
    (p.refreshGate cap n m.regs).1 = false := by
  unfold tryPush at h
  split_ifs at h with hgated
  · cases h
  · cases hrefresh : (p.refreshGate cap n m.regs).1 with
    | false => rfl
    | true =>
      simp only [hrefresh, if_true] at h
      cases h

/-- A message that is refused without overflow would lap a reader. -/
theorem exists_reader_of_refused (hfits : gateFits cap p.seq (minCursor regs n))
    (h : (p.refreshGate cap n regs).1 = false) :
    ∃ i < n, (regs i).Counts ∧ (regs i).cursorSeq + cap.val ≤ p.seq := by
  have hle : limit cap p.seq (minCursor regs n) ≤ p.seq := by
    rw [← wrappedLimit_eq hfits]
    simpa only [refreshGate, decide_eq_false_iff_not, Nat.not_lt] using h
  have hwindow := one_le_rescanWindow cap
  unfold rescanWindow at hwindow
  cases hmin : minCursor regs n with
  | none =>
    rw [hmin] at hle
    simp only [limit] at hle
    omega
  | some k =>
    rw [hmin] at hle
    simp only [limit] at hle
    obtain ⟨⟨i, hi, hcounts, rfl⟩, -⟩ := minCursor_eq_some hmin
    refine ⟨i, hi, hcounts, ?_⟩
    rcases min_le_iff.mp (show min _ _ ≤ p.seq from hle) with hcursor | hahead
    · exact hcursor
    · omega

/-- **When the gate is sound**: the producer is half a ring away from the last `u64`, and of the
readers, if there are any, one is a whole ring away from it. -/
theorem gateSound_iff (cap : Capacity) (n : ℕ) (m : Shared w ω) (p : RingProducer w ω) :
    p.GateSound cap n m ↔
      p.seq + rescanWindow cap ≤ u64Max ∧
        ((∃ i < n, (m.regs i).Counts) →
          ∃ i < n, (m.regs i).Counts ∧ (m.regs i).cursorSeq + cap.val ≤ u64Max) := by
  constructor
  · rintro ⟨⟨hseq, hmin⟩, -, -⟩
    refine ⟨hseq, fun hsome => ?_⟩
    cases hk : minCursor m.regs n with
    | none =>
      obtain ⟨i, hi, hcounts⟩ := hsome
      exact absurd hcounts (minCursor_eq_none.mp hk i hi)
    | some k =>
      obtain ⟨⟨i, hi, hcounts, rfl⟩, -⟩ := minCursor_eq_some hk
      exact ⟨i, hi, hcounts, hmin _ hk⟩
  · rintro ⟨hseq, hsome⟩
    have hfits : gateFits cap p.seq (minCursor m.regs n) := by
      refine ⟨hseq, fun k hk => ?_⟩
      -- the slowest reader is not ahead of the one that is away from the last `u64`
      obtain ⟨⟨i, hi, hcounts, -⟩, hall⟩ := minCursor_eq_some hk
      obtain ⟨j, hj, hjcounts, hle⟩ := hsome ⟨i, hi, hcounts⟩
      have hkj := hall j hj hjcounts
      omega
    exact ⟨hfits, exists_reader_of_refused hfits,
      fun alive item h => exists_reader_of_refused hfits (refreshGate_of_refused h)⟩

/-- A ring with one reader at `cursor`. -/
def oneReader (cursor writeSeq : ℕ) : Shared 0 Unit :=
  ⟨fun _ => ⟨0, nofun⟩, writeSeq, fun _ => ⟨9, 1, cursor⟩⟩

/-- A lossless producer that is about to write `seq`. -/
def producerAt (seq : ℕ) : RingProducer 0 Unit :=
  { RingProducer.create 0 Unit .losslessBackpressure with seq := seq }

/-- **A reader in the far future stops the producer.** The cursor wraps around when the capacity is
added to it, and message 3 is refused although the reader has not been lapped. -/
theorem gate_refuses_far_reader :
    ¬ (producerAt 3).GateSound ⟨4, 2, rfl⟩ 1 (oneReader u64Max 2) ∧
      ((producerAt 3).refreshGate ⟨4, 2, rfl⟩ 1 (oneReader u64Max 2).regs).1 = false ∧
      ((producerAt 3).tryPush ⟨4, 2, rfl⟩ 1 (fun _ => true) (oneReader u64Max 2) nofun).1 = false ∧
      ¬ ∃ i < 1, ((oneReader u64Max 2).regs i).Counts ∧
        ((oneReader u64Max 2).regs i).cursorSeq + 4 ≤ (producerAt 3).seq := by
  have hnone : ¬ ∃ i < 1, ((oneReader u64Max 2).regs i).Counts ∧
      ((oneReader u64Max 2).regs i).cursorSeq + 4 ≤ (producerAt 3).seq := by
    rintro ⟨i, -, -, hle⟩
    exact absurd (show u64Max + 4 ≤ 3 from hle) (by decide)
  have hrefused : ((producerAt 3).refreshGate ⟨4, 2, rfl⟩ 1 (oneReader u64Max 2).regs).1 =
      false := by decide
  exact ⟨fun hsound => hnone (hsound.refused hrefused), hrefused, by decide, hnone⟩

/-! ### Headroom -/

/-- What `try_push` leaves alone, whether it accepts the message or not. -/
structure Kept (m m' : Shared w ω) (p p' : RingProducer w ω) : Prop where
  regs : m'.regs = m.regs
  flow : p'.flowControl = p.flowControl

/-- The next message is refused. -/
def Stuck (cap : Capacity) (n : ℕ) (m : Shared w ω) (p : RingProducer w ω) : Prop :=
  p.gated = true ∧ (p.refreshGate cap n m.regs).1 = false

/-- The limit that is cached after a call. -/
def cachedAfter (cap : Capacity) (n : ℕ) (m : Shared w ω) (p : RingProducer w ω) : ℕ :=
  if p.gated = true then wrappedLimit cap p.seq (minCursor m.regs n) else p.gateLimit

/-- A message that is not stuck is accepted. -/
theorem tryPush_of_not_stuck (h : ¬ p.Stuck cap n m) (alive : ℕ → Bool) (item : Payload w ω) :
    (p.tryPush cap n alive m item).1 = true ∧
      Kept m (p.tryPush cap n alive m item).2.1 p (p.tryPush cap n alive m item).2.2 ∧
      (p.tryPush cap n alive m item).2.2.seq = (p.seq + 1) % 2 ^ 64 ∧
      (p.tryPush cap n alive m item).2.2.gateLimit = p.cachedAfter cap n m := by
  unfold tryPush cachedAfter
  cases hgated : p.gated with
  | false => exact ⟨rfl, ⟨rfl, rfl⟩, rfl, rfl⟩
  | true =>
    have hrefresh : (p.refreshGate cap n m.regs).1 = true := by
      by_contra hfalse
      exact h ⟨hgated, Bool.not_eq_true _ ▸ hfalse⟩
    simp only [hrefresh, if_true, Bool.true_eq_false, if_false]
    exact ⟨rfl, ⟨rfl, rfl⟩, rfl, rfl⟩

/-- A message that is stuck is refused, and nothing but the counter of refusals changes. -/
theorem tryPush_of_stuck (h : p.Stuck cap n m)
    (halive : ∀ i < n, (m.regs i).pid ≠ 0 → alive (m.regs i).pid = true) (item : Payload w ω) :
    (p.tryPush cap n alive m item).1 = false ∧ (p.tryPush cap n alive m item).2.1 = m ∧
      (p.tryPush cap n alive m item).2.2.seq = p.seq ∧
      (p.tryPush cap n alive m item).2.2.flowControl = p.flowControl ∧
      (p.tryPush cap n alive m item).2.2.gateLimit = p.cachedAfter cap n m := by
  obtain ⟨hgated, hrefresh⟩ := h
  unfold tryPush cachedAfter
  simp only [hgated, hrefresh, if_true, Bool.true_eq_false, if_false, Bool.false_eq_true,
    pruneDeadReaders_alive halive, Nat.lt_irrefl]
  split_ifs
  · exact ⟨rfl, rfl, rfl, rfl, rfl⟩
  · exact ⟨rfl, rfl, rfl, rfl, rfl⟩

/-- The producer stays stuck. -/
theorem Stuck.tryPush (h : p.Stuck cap n m)
    (halive : ∀ i < n, (m.regs i).pid ≠ 0 → alive (m.regs i).pid = true) (item : Payload w ω) :
    (p.tryPush cap n alive m item).2.2.Stuck cap n (p.tryPush cap n alive m item).2.1 := by
  obtain ⟨-, hm, hseq, hflow, hlimit⟩ := tryPush_of_stuck h halive item
  obtain ⟨hgated, hrefresh⟩ := h
  have hle : wrappedLimit cap p.seq (minCursor m.regs n) ≤ p.seq := by
    simpa only [refreshGate, decide_eq_false_iff_not, Nat.not_lt] using hrefresh
  rw [cachedAfter, if_pos hgated] at hlimit
  constructor
  · simp only [gated, decide_eq_true_eq] at hgated ⊢
    rw [hflow, hlimit, hseq]
    exact ⟨hgated.1, hle⟩
  · simpa only [refreshGate, hm, hseq, decide_eq_false_iff_not, Nat.not_lt] using hle

/-- Nothing is stuck in front of the slowest reader, away from the last `u64`. -/
theorem not_stuck (hwindow : p.seq + rescanWindow cap < 2 ^ 64)
    (hmin : ∀ k, minCursor m.regs n = some k → p.seq < k + cap.val ∧ k + cap.val < 2 ^ 64) :
    ¬ p.Stuck cap n m := by
  rintro ⟨-, hrefresh⟩
  have hfits : gateFits cap p.seq (minCursor m.regs n) :=
    ⟨Nat.le_sub_one_of_lt hwindow, fun k hk => Nat.le_sub_one_of_lt (hmin k hk).2⟩
  obtain ⟨i, hi, hcounts, hle⟩ := exists_reader_of_refused hfits hrefresh
  cases hk : minCursor m.regs n with
  | none => exact minCursor_eq_none.mp hk i hi hcounts
  | some k =>
    have hki := (minCursor_eq_some hk).2 i hi hcounts
    have hlt := (hmin k hk).1
    omega

/-- **Messages up to a bound in front of the slowest reader are accepted.** -/
theorem tryPushAll_accepts {bound : ℕ} (hwindow : bound + rescanWindow cap ≤ 2 ^ 64)
    (items : List (Payload w ω)) (hlen : p.seq + items.length ≤ bound)
    (hmin : ∀ k, minCursor m.regs n = some k → bound ≤ k + cap.val ∧ k + cap.val < 2 ^ 64) :
    ∀ b ∈ (p.tryPushAll cap n alive m items).1, b = true := by
  have hpos := one_le_rescanWindow cap
  induction items generalizing m p with
  | nil => exact fun b hb => absurd hb List.not_mem_nil
  | cons item items ih =>
    rw [List.length_cons] at hlen
    have hfree : ¬ p.Stuck cap n m := by
      refine not_stuck (by omega) fun k hk => ?_
      obtain ⟨hle, hlt⟩ := hmin k hk
      exact ⟨by omega, hlt⟩
    obtain ⟨hok, hkept, hseq, -⟩ := tryPush_of_not_stuck hfree alive item
    rw [Nat.mod_eq_of_lt (by omega)] at hseq
    intro b hb
    rcases List.mem_cons.mp hb with rfl | hb
    · exact hok
    · refine ih ?_ ?_ b hb
      · rw [hseq]
        omega
      · rwa [hkept.regs]

/-- A producer that is stuck stays stuck, whatever is pushed. -/
theorem Stuck.tryPushAll (h : p.Stuck cap n m)
    (halive : ∀ i < n, (m.regs i).pid ≠ 0 → alive (m.regs i).pid = true)
    (items : List (Payload w ω)) :
    (p.tryPushAll cap n alive m items).2.2.Stuck cap n (p.tryPushAll cap n alive m items).2.1 ∧
      (p.tryPushAll cap n alive m items).2.1.regs = m.regs := by
  induction items generalizing p with
  | nil => exact ⟨h, rfl⟩
  | cons item items ih =>
    obtain ⟨-, hm, -⟩ := tryPush_of_stuck h halive item
    have hnext := h.tryPush halive item
    rw [hm] at hnext
    simp only [RingProducer.tryPushAll, hm]
    exact ih hnext

section

variable {k : ℕ} (hmin : minCursor m.regs n = some k)

include hmin

/-- The limit that is cached after a call is not beyond the slowest reader. -/
theorem cachedAfter_le (hlimit : p.gateLimit ≤ k + cap.val) :
    p.cachedAfter cap n m ≤ k + cap.val := by
  unfold cachedAfter
  split_ifs
  · rw [hmin]
    exact wrappedLimit_le cap _ k
  · exact hlimit

/-- A producer that has come to the slowest reader is stuck. -/
theorem stuck_of_le (hflow : p.flowControl = .losslessBackpressure)
    (hlimit : p.gateLimit ≤ k + cap.val) (hseq : k + cap.val ≤ p.seq) : p.Stuck cap n m := by
  constructor
  · simpa only [gated, decide_eq_true_eq] using ⟨hflow, hlimit.trans hseq⟩
  · simp only [refreshGate, decide_eq_false_iff_not, Nat.not_lt, hmin]
    exact (wrappedLimit_le cap _ k).trans hseq

/-- **The producer gets stuck at the slowest reader**, whatever limit within its reach is cached. -/
theorem tryPushAll_stuck (items : List (Payload w ω))
    (hflow : p.flowControl = .losslessBackpressure)
    (halive : ∀ i < n, (m.regs i).pid ≠ 0 → alive (m.regs i).pid = true)
    (hfits : k + cap.val < 2 ^ 64) (hlimit : p.gateLimit ≤ k + cap.val)
    (hlen : k + cap.val ≤ p.seq + items.length) :
    (p.tryPushAll cap n alive m items).2.2.Stuck cap n (p.tryPushAll cap n alive m items).2.1 ∧
      (p.tryPushAll cap n alive m items).2.1.regs = m.regs := by
  induction items generalizing m p with
  | nil => exact ⟨stuck_of_le hmin hflow hlimit hlen, rfl⟩
  | cons item items ih =>
    rw [List.length_cons] at hlen
    by_cases hstuck : p.Stuck cap n m
    · exact hstuck.tryPushAll halive (item :: items)
    · -- the message is accepted, so it was in front of the slowest reader
      obtain ⟨-, hkept, hseq, hcached⟩ := tryPush_of_not_stuck hstuck alive item
      have hlt : p.seq < k + cap.val := by
        by_contra hge
        exact hstuck (stuck_of_le hmin hflow hlimit (Nat.not_lt.mp hge))
      rw [Nat.mod_eq_of_lt (by omega)] at hseq
      obtain ⟨hend, hregs⟩ := ih (by rwa [hkept.regs]) (hkept.flow.trans hflow)
        (by rwa [hkept.regs]) (by rw [hcached]; exact cachedAfter_le hmin hlimit)
        (by rw [hseq]; omega)
      exact ⟨hend, hregs.trans hkept.regs⟩

end

/-- No reader has registered or moved its cursor backwards since the registry was `old`. -/
def Forward (n : ℕ) (old regs : ℕ → ReaderSlot) : Prop :=
  ∀ i < n, (regs i).Counts → (old i).Counts ∧ (old i).cursorSeq ≤ (regs i).cursorSeq

/-- The cached limit was computed by a scan since which no reader has registered or moved its
cursor backwards, or by none at all. -/
def ScannedBefore (cap : Capacity) (n : ℕ) (m : Shared w ω) (p : RingProducer w ω) : Prop :=
  p.gateLimit = 0 ∨
    ∃ old seq, p.gateLimit = wrappedLimit cap seq (minCursor old n) ∧ Forward n old m.regs

/-- A limit of that kind is not beyond the slowest reader. -/
theorem ScannedBefore.gateLimit_le {k : ℕ} (h : p.ScannedBefore cap n m)
    (hmin : minCursor m.regs n = some k) : p.gateLimit ≤ k + cap.val := by
  rcases h with hzero | ⟨old, seq, hlimit, hforward⟩
  · rw [hzero]
    exact Nat.zero_le _
  · obtain ⟨⟨i, hi, hcounts, rfl⟩, -⟩ := minCursor_eq_some hmin
    obtain ⟨hold, hle⟩ := hforward i hi hcounts
    cases hk : minCursor old n with
    | none => exact absurd hold (minCursor_eq_none.mp hk i hi)
    | some k₀ =>
      have hk₀ := (minCursor_eq_some hk).2 i hi hold
      rw [hlimit, hk]
      exact (wrappedLimit_le cap seq k₀).trans (by omega)

/-- **`headroom` agrees with `try_push`.** All readers are alive and idle. As many messages as
`headroom` says are accepted, away from the last `u64`. If the slowest reader is not ahead of the
producer and the cached limit is no older than the readers' last steps back, the next message is
refused, and it changes no slot, not `seq` and not `write_seq`. -/
theorem headroom_spec (hflow : p.flowControl = .losslessBackpressure)
    (halive : ∀ i < n, (m.regs i).pid ≠ 0 → alive (m.regs i).pid = true)
    (hcursor : ∀ i < n, (m.regs i).Counts →
      1 ≤ (m.regs i).cursorSeq ∧ (m.regs i).cursorSeq + cap.val < 2 ^ 64) :
    let r := p.headroom cap n alive m
    (p.seq + r.1 + rescanWindow cap ≤ 2 ^ 64 → ∀ items : List (Payload w ω), items.length = r.1 →
      ∀ b ∈ (p.tryPushAll cap n alive r.2 items).1, b = true) ∧
    (∀ k, minCursor m.regs n = some k → k ≤ p.seq → p.ScannedBefore cap n m →
      ∀ items : List (Payload w ω), items.length = r.1 → ∀ item,
        let after := p.tryPushAll cap n alive r.2 items
        let next := after.2.2.tryPush cap n alive after.2.1 item
        next.1 = false ∧ next.2.1.slots = after.2.1.slots ∧
          next.2.1.writeSeq = after.2.1.writeSeq ∧ next.2.2.seq = after.2.2.seq) := by
  -- `headroom` releases no slot
  have hheadroom : p.headroom cap n alive m =
      (match minCursor m.regs n with
        | some min => cap.val - (p.seq - 1 - (min - 1))
        | none => cap.val, m) := by
    simp only [headroom, pruneDeadReaders_alive halive]
  rw [hheadroom]
  refine ⟨fun hwindow items hlen => ?_, fun k hk hle hscan items hlen item => ?_⟩
  · cases items with
    | nil => exact fun b hb => absurd hb List.not_mem_nil
    | cons item items =>
      refine tryPushAll_accepts hwindow _ (by rw [hlen]) fun k hk => ?_
      obtain ⟨⟨i, hi, hcounts, rfl⟩, -⟩ := minCursor_eq_some hk
      obtain ⟨hpos, hlt⟩ := hcursor i hi hcounts
      have hsome : 0 < cap.val - (p.seq - 1 - ((m.regs i).cursorSeq - 1)) := by
        simp only [hk, List.length_cons] at hlen
        rw [← hlen]
        exact Nat.succ_pos _
      simp only [hk]
      exact ⟨by omega, hlt⟩
  · obtain ⟨⟨i, hi, hcounts, hik⟩, -⟩ := minCursor_eq_some hk
    obtain ⟨hpos, hlt⟩ := hcursor i hi hcounts
    rw [hik] at hpos hlt
    have hend : k + cap.val ≤ p.seq + (cap.val - (p.seq - 1 - (k - 1))) := by omega
    simp only [hk] at hlen
    rw [← hlen] at hend
    obtain ⟨hstuck, hregs⟩ := tryPushAll_stuck hk items hflow halive hlt (hscan.gateLimit_le hk)
      hend
    obtain ⟨hno, hm, hseq, -⟩ := tryPush_of_stuck hstuck (by rwa [hregs]) item
    exact ⟨hno, by rw [hm], by rw [hm], hseq⟩

/-- A new ring of four slots takes four messages and refuses the fifth. -/
theorem headroom_spec_four :
    ((producerAt 1).headroom ⟨4, 2, rfl⟩ 1 (fun _ => true) (oneReader 1 0)).1 = 4 ∧
      (∀ b ∈ ((producerAt 1).tryPushAll ⟨4, 2, rfl⟩ 1 (fun _ => true) (oneReader 1 0)
        (List.replicate 4 nofun)).1, b = true) ∧
      (((producerAt 1).tryPushAll ⟨4, 2, rfl⟩ 1 (fun _ => true) (oneReader 1 0)
        (List.replicate 4 nofun)).2.2.tryPush ⟨4, 2, rfl⟩ 1 (fun _ => true)
          ((producerAt 1).tryPushAll ⟨4, 2, rfl⟩ 1 (fun _ => true) (oneReader 1 0)
            (List.replicate 4 nofun)).2.1 nofun).1 = false := by
  have hcursor : 1 ≤ 1 ∧ 1 + 4 < 2 ^ 64 := ⟨by decide, by decide⟩
  have hspec := @headroom_spec 0 Unit ⟨4, 2, rfl⟩ 1 (fun _ => true) (oneReader 1 0) (producerAt 1)
    rfl (fun _ _ _ => rfl) (fun _ _ _ => hcursor)
  exact ⟨by decide, hspec.1 (by decide) (List.replicate 4 nofun) rfl,
    (hspec.2 1 rfl (by decide) (.inl rfl) (List.replicate 4 nofun) rfl nofun).1⟩

/-- **Where `headroom` and `try_push` disagree.** A reader registered at 0, in front of the first
message, counts as one at 1 for `headroom` and not for the gate. And near the last `u64` the rescan
window wraps around: two messages fit, and the first is refused. -/
theorem headroom_disagrees :
    (((producerAt 1).headroom ⟨4, 2, rfl⟩ 1 (fun _ => true) (oneReader 0 0)).1 = 4 ∧
      ((producerAt 1).tryPushAll ⟨4, 2, rfl⟩ 1 (fun _ => true) (oneReader 0 0)
        (List.replicate 4 nofun)).1 = [true, true, true, false]) ∧
    (((producerAt (2 ^ 64 - 4)).headroom ⟨8, 3, rfl⟩ 1 (fun _ => true)
        (oneReader (2 ^ 64 - 10) (2 ^ 64 - 5))).1 = 2 ∧
      ((producerAt (2 ^ 64 - 4)).tryPushAll ⟨8, 3, rfl⟩ 1 (fun _ => true)
        (oneReader (2 ^ 64 - 10) (2 ^ 64 - 5)) (List.replicate 2 nofun)).1 = [false, false]) := by
  refine ⟨⟨?_, ?_⟩, ?_, ?_⟩
  · decide
  · decide
  · decide
  · decide

end RingProducer

end Ringfire
