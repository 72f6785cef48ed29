import Ringfire.Replication.Mirror

/-!
# Records kept aside

A UDP mirror keeps records that come too early in `pending`. They leave it in `after_advance`, once
the write position has reached them or has passed them. `Mirror.Safe` says that none of them is lost
on the way: a record below the write position was written. Every move of a mirror is safe, and the
jump of a `GAP` is safe exactly when it leads over no record that is kept aside.

`Mirror.Within` bounds every sequence a mirror knows of.

## Main results

* `Mirror.Safe.moves`: the moves of a mirror lose nothing
* `Mirror.Safe.skip`, `Mirror.not_keepsHeld_of_skip`: when a `GAP` does
-/

namespace Ringfire

variable {w : ℕ}

namespace Mirror

/-- The record of sequence `k` is kept aside. -/
def Holding (m : Mirror w) (k : ℕ) : Prop := ∃ x ∈ m.pending, x.1 ≤ k ∧ k < x.1 + x.2.1

/-- Sequence `k` was written to the ring. -/
def Wrote (m : Mirror w) (k : ℕ) : Prop := ∃ x ∈ m.ring.log, x.seq = k

/-- No record kept aside is lost: it stays where it is or is written, and the write position does
not pass it otherwise. -/
structure KeepsHeld (m m' : Mirror w) : Prop where
  stays : ∀ k, m.Holding k → m'.Holding k ∨ m'.Wrote k
  passed : ∀ k, m.Holding k → m.ring.nextSeq ≤ k → k < m'.ring.nextSeq → m'.Wrote k

/-- A record kept aside that is below the write position was written. -/
def Settled (m : Mirror w) : Prop := ∀ k, m.Holding k → k < m.ring.nextSeq → m.Wrote k

/-- From `m` to `m'` nothing is lost. -/
structure Safe (m m' : Mirror w) : Prop where
  keeps : m.KeepsHeld m'
  settled : m'.Settled
  log : ∀ k, m.Wrote k → m'.Wrote k

variable {g : Geometry w} {record : ℕ → Record} {env : Env} {m m₁ m' : Mirror w}

theorem KeepsHeld.refl (m : Mirror w) : m.KeepsHeld m where
  stays := fun _ hk => .inl hk
  passed := fun _ _ hle hlt => absurd hlt (Nat.not_lt.mpr hle)

theorem Safe.refl (h : m.Settled) : m.Safe m where
  keeps := .refl m
  settled := h
  log := fun _ hk => hk

theorem Safe.trans (h : m.Safe m₁) (h' : m₁.Safe m') : m.Safe m' := by
  refine ⟨⟨fun k hk => ?_, fun k hk hle hlt => ?_⟩, h'.settled, fun k hk => h'.log k (h.log k hk)⟩
  · rcases h.keeps.stays k hk with hk | hk
    · exact h'.keeps.stays k hk
    · exact .inr (h'.log k hk)
  · -- the position passes `k` in the first part or in the second
    rcases Nat.lt_or_ge k m₁.ring.nextSeq with hlt₁ | hle₁
    · exact h'.log k (h.keeps.passed k hk hle hlt₁)
    · rcases h.keeps.stays k hk with hk | hk
      · exact h'.keeps.passed k hk hle₁ hlt
      · exact h'.log k hk

/-- What `write_records` has written. -/
theorem wrote_of_writes {seq count : ℕ} (hseq : seq ≤ m.ring.nextSeq)
    (hw : MirrorRing.Writes g record m.ring.nextSeq seq count m.ring m'.ring) (k : ℕ) :
    m'.Wrote k ↔ m.Wrote k ∨ (m.ring.nextSeq ≤ k ∧ k < seq + count) := by
  obtain ⟨xs, hlog, hxs⟩ := hw.log
  rw [max_eq_left hseq] at hxs
  have hmem : (∃ x ∈ xs, x.seq = k) ↔ m.ring.nextSeq ≤ k ∧ k < seq + count := by
    rw [← List.mem_map, hxs, List.mem_range'_1]
    omega
  simp only [Wrote, hlog, List.mem_append, or_and_right, exists_or, hmem]

/-- While the ring stays as it is, nothing is lost if records leave `pending` only once they were
written, and those that come to it are ahead. -/
theorem Safe.of_ring_eq (ring : m'.ring = m.ring)
    (stays : ∀ k, m.Holding k → m'.Holding k ∨ m.Wrote k)
    (settled : ∀ k, m'.Holding k → k < m.ring.nextSeq → m.Wrote k) : m.Safe m' := by
  have hwrote : ∀ k, m.Wrote k → m'.Wrote k := by
    intro k hk
    rwa [Wrote, ring]
  refine ⟨⟨fun k hk => (stays k hk).imp_right (hwrote k), fun k _ hle hlt => ?_⟩,
    fun k hk hlt => ?_, hwrote⟩
  · rw [ring] at hlt
    exact absurd hlt (Nat.not_lt.mpr hle)
  · rw [ring] at hlt
    exact hwrote k (settled k hk hlt)

/-- **A move of the mirror loses nothing.** -/
theorem Safe.move (h : m.Settled) (hm : Move g record m m') : m.Safe m' := by
  cases hm with
  | keep ring pending =>
    have hhold : ∀ k, m'.Holding k ↔ m.Holding k := fun k => by simp only [Holding, pending]
    exact .of_ring_eq ring (fun k hk => .inl ((hhold k).mpr hk))
      fun k hk hlt => h k ((hhold k).mp hk) hlt
  | drop x ring pending past =>
    refine .of_ring_eq ring ?_ ?_
    · rintro k ⟨y, hy, hk⟩
      have hhold : m.Holding k := ⟨y, hy, hk⟩
      rw [pending, List.mem_cons] at hy
      rcases hy with rfl | hy
      · -- the entry is past, so its records were written
        exact .inr (h k hhold (hk.2.trans_le past))
      · exact .inl ⟨y, hy, hk⟩
    · rintro k ⟨y, hy, hk⟩ hlt
      exact h k ⟨y, by rw [pending]; exact List.mem_cons_of_mem x hy, hk⟩ hlt
  | hold seq count ring ahead pending =>
    refine .of_ring_eq ring ?_ ?_
    · rintro k ⟨y, hy, hk⟩
      refine .inl ⟨y, ?_, hk⟩
      rw [pending]
      exact OrderedMap.mem_insertNew_of_mem hy
    · rintro k ⟨y, hy, hk⟩ hlt
      rw [pending] at hy
      rcases OrderedMap.mem_insertNew hy with rfl | hy
      · -- what is new is ahead
        exact absurd (ahead.trans_le hk.1) (Nat.lt_asymm hlt)
      · exact h k ⟨y, hy, hk⟩ hlt
  | write seq count start writes pending =>
    have hwrote := wrote_of_writes start writes
    have hnext : m'.ring.nextSeq = max m.ring.nextSeq (seq + count) := writes.nextSeq
    have hsub : ∀ y ∈ m'.pending, y ∈ m.pending := by
      intro y hy
      rcases pending with heq | ⟨payload, heq⟩
      · rw [← heq]
        exact hy
      · rw [heq]
        exact List.mem_cons_of_mem _ hy
    -- what the position has passed was written before, or is among the records written now
    have hpast : ∀ k, m.Holding k → k < m'.ring.nextSeq → m'.Wrote k := by
      intro k hk hlt
      rw [hwrote]
      rcases Nat.lt_or_ge k m.ring.nextSeq with hk' | hk'
      · exact .inl (h k hk hk')
      · exact .inr ⟨hk', by omega⟩
    refine ⟨⟨?_, fun k hk _ hlt => hpast k hk hlt⟩, ?_, fun k hk => (hwrote k).mpr (.inl hk)⟩
    · rintro k ⟨y, hy, hk⟩
      rcases pending with heq | ⟨payload, heq⟩
      · exact .inl ⟨y, by rw [heq]; exact hy, hk⟩
      · have hhold : m.Holding k := ⟨y, hy, hk⟩
        rw [heq, List.mem_cons] at hy
        rcases hy with rfl | hy
        · exact .inr (hpast k hhold (by rw [hnext]; exact lt_max_of_lt_right hk.2))
        · exact .inl ⟨y, hy, hk⟩
    · rintro k ⟨y, hy, hk⟩ hlt
      exact hpast k ⟨y, hsub y hy, hk⟩ hlt

/-- **Any number of moves loses nothing.** -/
theorem Safe.moves (h : m.Settled) (hm : Moves g record m m') : m.Safe m' := by
  induction hm with
  | refl => exact .refl h
  | tail _ hmove ih => exact ih.trans (.move ih.settled hmove)

/-- The jump of a `GAP` over nothing that is kept aside. -/
theorem Safe.skip (h : m.Settled) {seq : ℕ}
    (hspares : ∀ k, m.Holding k → m.ring.nextSeq ≤ k → seq ≤ k) :
    m.Safe { m with gaps := m.gaps + 1, ring := m.ring.skipTo seq } := by
  have hwrote : ∀ k, Wrote { m with gaps := m.gaps + 1, ring := m.ring.skipTo seq } k ↔ m.Wrote k :=
    fun k => by simp only [Wrote, MirrorRing.skipTo_log]
  have hback : ∀ k, m.Holding k → k < (m.ring.skipTo seq).nextSeq → k < m.ring.nextSeq := by
    intro k hk hlt
    unfold MirrorRing.skipTo at hlt
    split_ifs at hlt
    · by_contra hge
      exact absurd (hspares k hk (Nat.not_lt.mp hge)) (Nat.not_le.mpr hlt)
    · exact hlt
  refine ⟨⟨fun k hk => .inl hk, fun k hk hle hlt => ?_⟩, fun k hk hlt => ?_,
    fun k hk => (hwrote k).mpr hk⟩
  · exact absurd (hback k hk hlt) (Nat.not_lt.mpr hle)
  · exact (hwrote k).mpr (h k hk (hback k hk hlt))

/-- The write position goes up, and nothing is written below it. -/
theorem Moves.above (hm : Moves g record m m') : m.ring.nextSeq ≤ m'.ring.nextSeq ∧
    ∀ k, m'.Wrote k → m.Wrote k ∨ m.ring.nextSeq ≤ k := by
  induction hm with
  | refl => exact ⟨le_refl _, fun k hk => .inl hk⟩
  | @tail m₁ m₂ _ hmove ih =>
    obtain ⟨hle, hwrote⟩ := ih
    have hone : m₁.ring.nextSeq ≤ m₂.ring.nextSeq ∧
        ∀ k, m₂.Wrote k → m₁.Wrote k ∨ m₁.ring.nextSeq ≤ k := by
      cases hmove with
      | keep ring _ | drop _ ring _ _ | hold _ _ ring _ _ =>
        rw [ring]
        exact ⟨le_refl _, fun k hk => .inl (by simpa only [Wrote, ring] using hk)⟩
      | write seq count start writes pending =>
        refine ⟨by rw [writes.nextSeq]; exact le_max_left _ _, fun k hk => ?_⟩
        exact ((wrote_of_writes start writes k).mp hk).imp_right And.left
    refine ⟨hle.trans hone.1, fun k hk => ?_⟩
    rcases hone.2 k hk with hk | hk
    · exact hwrote k hk
    · exact .inr (hle.trans hk)

/-- **The jump of a `GAP` over a record that is kept aside loses it.** -/
theorem not_keepsHeld_of_skip (h : m.Inv g record) {seq k : ℕ} (hk : m.Holding k)
    (hle : m.ring.nextSeq ≤ k) (hlt : k < seq)
    (hm : Moves g record { m with gaps := m.gaps + 1, ring := m.ring.skipTo seq } m') :
    ¬ m.KeepsHeld m' := by
  intro hkeeps
  obtain ⟨hnext, hwrote⟩ := Moves.above hm
  have hskip : seq ≤ (m.ring.skipTo seq).nextSeq := (m.ring.le_skipTo seq).2
  simp only at hnext hwrote
  rcases hwrote k (hkeeps.passed k hk hle (by omega)) with ⟨x, hx, rfl⟩ | hk'
  · -- what was written before is below the write position
    have hbelow := h.ring.below x (by simpa only [MirrorRing.skipTo_log] using hx)
    omega
  · omega

/-! ## The sequences a mirror knows of -/

/-- The mirror that a turn of the loop of `after_advance` leaves. -/
def Turned.mirror : Turned w → Mirror w
  | .stop _ m => m
  | .goOn m => m

/-- The mirror has written, keeps aside and asks for nothing from `bound` on. -/
structure Within (bound : ℕ) (m : Mirror w) : Prop where
  next : m.ring.nextSeq ≤ bound
  held : ∀ x ∈ m.pending, x.1 + x.2.1 ≤ bound
  nak : ∀ nak, m.nak = some nak → nak.first ≤ bound
  requested : ∀ nak ∈ m.requested, nak.first ≤ bound

variable {bound : ℕ}

theorem Within.mono {bound' : ℕ} (h : m.Within bound) (hle : bound ≤ bound') : m.Within bound' :=
  ⟨h.next.trans hle, fun x hx => (h.held x hx).trans hle, fun nak hn => (h.nak nak hn).trans hle,
    fun nak hn => (h.requested nak hn).trans hle⟩

theorem Within.sendNak (h : m.Within bound) {nak : Nak} (hn : nak.first ≤ bound) :
    (m.sendNak env nak).2.Within bound := by
  unfold Mirror.sendNak
  split_ifs
  · refine ⟨h.next, h.held, ?_, fun x hx => ?_⟩
    · rintro _ ⟨⟩
      exact hn
    · rcases List.mem_append.mp hx with hx | hx
      · exact h.requested x hx
      · rw [List.mem_singleton.mp hx]
        exact hn
  · exact h

theorem Within.request (h : m.Within bound) {first last : ℕ} (hf : first ≤ bound) :
    (m.request env first last).2.Within bound := by
  unfold Mirror.request
  simp only
  split
  · split_ifs
    · exact h
    · exact h.sendNak hf
  · exact h.sendNak hf

theorem Within.clearNak (h : m.Within bound) : m.clearNak.Within bound := by
  unfold Mirror.clearNak
  split
  · split_ifs
    · exact ⟨h.next, h.held, by rintro _ ⟨⟩, h.requested⟩
    · exact h
  · exact h

theorem Within.onSourceSeq (h : m.Within bound) (seq : ℕ) :
    (m.onSourceSeq env seq).2.Within bound := by
  have h' : Within bound { m with sourceSeq := max m.sourceSeq seq } :=
    ⟨h.next, h.held, h.nak, h.requested⟩
  unfold Mirror.onSourceSeq
  simp only
  split_ifs
  · exact h'.request h.next
  · exact h'

theorem Within.hold (h : m.Within bound) {seq count : ℕ} (hle : seq + count ≤ bound)
    (payload : List UInt8) : (m.hold seq count payload).Within bound := by
  unfold Mirror.hold
  split_ifs
  · refine ⟨h.next, fun x hx => ?_, h.nak, h.requested⟩
    rcases OrderedMap.mem_insertNew hx with rfl | hx
    · exact hle
    · exact h.held x hx
  · exact h

variable (hwf : ∀ s, (record s).WellFormed g)
include hwf

theorem Within.writeRecords (h : m.Within bound) (hm : m.ring.Inv g record) {seq count : ℕ}
    {res : Except RingfireError Unit} (hseq : seq ≤ m.ring.nextSeq) (hle : seq + count ≤ bound)
    (hw : m.writeRecords g seq count (dataBytes record seq count) = some (res, m')) :
    m'.Within bound := by
  obtain ⟨-, hpending, hwrites⟩ := writeRecords_spec hwf hm hseq hw
  have hsame : m'.nak = m.nak ∧ m'.requested = m.requested := by
    obtain ⟨⟨res', ring⟩, -, heq⟩ := Option.map_eq_some_iff.mp hw
    cases res' <;> cases heq <;> exact ⟨rfl, rfl⟩
  refine ⟨?_, by rw [hpending]; exact h.held, by rw [hsame.1]; exact h.nak,
    by rw [hsame.2]; exact h.requested⟩
  rw [hwrites.nextSeq]
  exact max_le h.next hle

theorem Within.advanceOne (h : m.Within bound) (hm : m.Inv g record) {x : Held} {rest : List Held}
    (hp : m.pending = x :: rest) {t : Turned w} (hone : m.advanceOne g env x rest = some t) :
    t.mirror.Within bound := by
  have hsame := clearNak_same m
  have h₀ := h.clearNak
  unfold Mirror.advanceOne at hone
  generalize m.clearNak = m₀ at hsame hone h₀
  have hm₀ := hm.move hsame.move
  have hp₀ : m₀.pending = x :: rest := hsame.pending.trans hp
  have hx := hm₀.held x (by rw [hp₀]; exact List.mem_cons_self)
  have hrest : Within bound { m₀ with pending := rest } :=
    ⟨h₀.next, fun y hy => h₀.held y (by rw [hp₀]; exact List.mem_cons_of_mem x hy), h₀.nak,
      h₀.requested⟩
  simp only at hone
  split_ifs at hone with hpast hahead
  · cases hone
    exact hrest
  · cases hone
    rw [← hp₀]
    exact h₀.request h₀.next
  · obtain ⟨⟨res, m₁⟩, hwr, heq⟩ := Option.map_eq_some_iff.mp hone
    rw [hx] at hwr
    have hle : x.1 + x.2.1 ≤ bound := h₀.held x (by rw [hp₀]; exact List.mem_cons_self)
    have h₁ : m₁.Within bound :=
      hrest.writeRecords hwf hm₀.ring (Nat.not_lt.mp hahead) hle hwr
    cases res <;> cases heq <;> exact h₁

theorem Within.afterAdvance : ∀ (entries : List Held) {m m' : Mirror w}
    {res : Except RingfireError Unit}, m.Within bound → m.Inv g record → m.pending = entries →
    m.afterAdvance g env entries = some (res, m') → m'.Within bound := by
  intro entries
  induction entries with
  | nil =>
    intro m m' res h hm hp haa
    cases haa
    exact h.clearNak
  | cons x rest ih =>
    intro m m' res h hm hp haa
    rw [Mirror.afterAdvance] at haa
    split at haa
    · cases haa
    · next res₁ m₁ hone =>
      cases haa
      exact h.advanceOne hwf hm hp hone
    · next m₁ hone =>
      rcases advanceOne_spec hwf hm hp hone with ⟨_, _, ht, -⟩ | ⟨_, ht, hmove, hpd⟩
      · cases ht
      · cases ht
        exact ih (h.advanceOne hwf hm hp hone) (hm.move hmove) hpd haa

theorem Within.apply (h : m.Within bound) (hm : m.Inv g record) {seq count : ℕ}
    {res : Except RingfireError Unit} (hle : seq + count ≤ bound)
    (ha : m.apply g env seq count (dataBytes record seq count) = some (res, m')) :
    m'.Within bound := by
  unfold Mirror.apply at ha
  split_ifs at ha with hpast hahead
  · cases ha
    exact h
  · have hreq : Within bound ((m.hold seq count (dataBytes record seq count)).request env
        m.ring.nextSeq (seq - 1)).2 := (h.hold hle _).request h.next
    rw [Option.some_injective _ ha] at hreq
    exact hreq
  · split at ha
    · cases ha
    · next e m₁ hwr =>
      cases ha
      exact h.writeRecords hwf hm.ring (Nat.not_lt.mp hahead) hle hwr
    · next u m₁ hwr =>
      obtain ⟨-, hpd, hwrites⟩ := writeRecords_spec hwf hm.ring (Nat.not_lt.mp hahead) hwr
      have hmove : Move g record m m₁ :=
        .write seq count (Nat.not_lt.mp hahead) hwrites (.inl hpd)
      exact Within.afterAdvance hwf _
        (h.writeRecords hwf hm.ring (Nat.not_lt.mp hahead) hle hwr) (hm.move hmove) rfl ha

end Mirror

end Ringfire
