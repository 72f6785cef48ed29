import Ringfire.Replication.MirrorWriter
import Ringfire.Replication.Serve
import Ringfire.Ring.Hole

/-!
# Readers of a mirror ring

A mirror ring is sparse: the writer skips sequences the source no longer has, and readers skip the
holes. Two things are asked of `skip_hole`. While a writer is at work it must pass nothing that
was written; and once nobody writes, a reader must get past everything that was published.

The first holds however the loads of `skip_hole` fall between the stores of one writer. The second
does not: a writer that died with a slot marked leaves the marker behind, and a reader takes it for
a write in progress for as long as no later writer stores into that slot.

## Main results

* `SparseSystem.skips_only_holes`: `skip_hole` passes only sequences that are not in the ring
* `MirrorFile.readers_progress`: readers of a quiescent mirror ring get on exactly when no slot of
  a published sequence is left marked
-/

namespace Ringfire

variable {ρ : Type} {w : ℕ} {ω : Type}

/-! ## Skipping while the writer is at work -/

/-- What `skip_hole` knows of a reader, and where it stands in it. -/
structure HoleReader where
  cursor : ℕ
  lappedTotal : ℕ
  pc : Option HolePc

namespace HoleReader

/-- One load of `skip_hole`; at its end the cursor moves and what it passes counts as lapped. -/
def step (cap : Capacity) (slots : ℕ → Slot w ω) (writeSeq : ℕ) (r : HoleReader) :
    Option HoleReader :=
  match r.pc with
  | none => none
  | some pc =>
    match pc.step cap (fun i => (slots i).seq) writeSeq r.cursor with
    | .stay => some { r with pc := none }
    | .go pc' => some { r with pc := some pc' }
    | .move next => some ⟨next, r.lappedTotal + (next - r.cursor), none⟩

end HoleReader

/-- A mirror ring with readers inside `skip_hole`. -/
structure SparseSystem (ρ : Type) (w : ℕ) (ω : Type) where
  file : MirrorFile w ω
  reader : ρ → HoleReader

/-- A step of the writer, a call of `skip_hole` by a consumer in any state, or a load of a reader
inside it. -/
inductive SparseLabel (ρ : Type) (w : ℕ) (ω : Type) where
  | writer (a : FileLabel w ω)
  | call (r : ρ) (cursor lappedTotal : ℕ)
  | reader (r : ρ)

namespace SparseSystem

/-- A fresh mirror ring nobody reads. -/
def create (ρ : Type) (w : ℕ) (ω : Type) [Inhabited ω] : SparseSystem ρ w ω :=
  ⟨.create w ω, fun _ => ⟨1, 0, none⟩⟩

/-- One step of the system. -/
def step [DecidableEq ρ] (cap : Capacity) (s : SparseSystem ρ w ω) :
    SparseLabel ρ w ω → Option (SparseSystem ρ w ω)
  | .writer a => (s.file.step cap a).map fun file => { s with file := file }
  | .call r cursor lappedTotal =>
    if (s.reader r).pc.isSome then none
    else some { s with reader := Function.update s.reader r ⟨cursor, lappedTotal, some .load⟩ }
  | .reader r =>
    ((s.reader r).step cap s.file.slots s.file.writeSeq).map fun r' =>
      { s with reader := Function.update s.reader r r' }

end SparseSystem

/-- What a reader inside `skip_hole` knows of the ring: `write_seq` as it was loaded is below the
write position, and once the slot of the cursor was looked at, the cursor's sequence was not
written. -/
def HolePc.Sound (file : MirrorFile w ω) (cursor : ℕ) : HolePc → Prop
  | .load => True
  | .seen ws => ws < file.nextSeq
  | .scan ws _ _ => ws < file.nextSeq ∧ cursor ∉ file.written

section

variable {cap : Capacity} {file file' : MirrorFile w ω} {cursor : ℕ} {pc pc' : HolePc}

theorem HolePc.Sound.step (h : pc.Sound file cursor) (hscan : pc.Scanned cap cursor)
    (hfile : file.Inv cap) (hord : file.Ordered cap)
    (hstep : pc.step cap (fun i => (file.slots i).seq) file.writeSeq cursor = .go pc') :
    pc'.Sound file cursor := by
  cases pc with
  | load =>
    simp only [HolePc.step] at hstep
    split_ifs at hstep
    cases hstep
    exact hfile.published
  | seen ws =>
    simp only [HolePc.step] at hstep
    split_ifs at hstep with hword
    cases hstep
    -- a sequence that was written is shown by its slot, or a later one is
    exact ⟨h, fun hmem => hword (hord.shown cursor hmem)⟩
  | scan ws next examined =>
    simp only [HolePc.step] at hstep
    split_ifs at hstep
    cases hstep
    exact h

theorem HolePc.Sound.evolves (h : pc.Sound file cursor) (hscan : pc.Scanned cap cursor)
    (hmove : MirrorFile.Move cap file file') : pc.Sound file' cursor := by
  obtain ⟨hle, hwritten⟩ := hmove.grows
  cases pc with
  | load => trivial
  | seen ws => exact lt_of_lt_of_le h hle
  | scan ws next examined =>
    refine ⟨h.1.trans_le hle, fun hmem => ?_⟩
    rcases hwritten cursor hmem with hmem | ⟨heq, -⟩
    · exact h.2 hmem
    · -- nothing is written at or below the `write_seq` the reader has loaded
      have := h.1
      have := hscan.1
      omega

end

namespace SparseSystem

variable {cap : Capacity} {s s' : SparseSystem ρ w ω}

/-- What holds of a mirror ring and its readers while no writer dies. -/
structure Inv (cap : Capacity) (s : SparseSystem ρ w ω) : Prop where
  file : s.file.Inv cap
  ordered : s.file.Ordered cap
  reader : ∀ r pc, (s.reader r).pc = some pc →
    pc.Scanned cap (s.reader r).cursor ∧ pc.Sound s.file (s.reader r).cursor

theorem Inv.create [Inhabited ω] (cap : Capacity) : (SparseSystem.create ρ w ω).Inv cap :=
  ⟨.create cap, .create cap, by rintro r pc ⟨⟩⟩

theorem Inv.writer (h : s.Inv cap) {file : MirrorFile w ω} (hmove : MirrorFile.Move cap s.file file) :
    Inv cap { s with file := file } := by
  refine ⟨h.file.step hmove, h.ordered.step hmove, fun r pc hpc => ?_⟩
  obtain ⟨hscan, hsound⟩ := h.reader r pc hpc
  exact ⟨hscan, hsound.evolves hscan hmove⟩

variable [DecidableEq ρ]

/-- A reader changed and the others did not. -/
theorem Inv.update (h : s.Inv cap) {r : ρ} {r' : HoleReader}
    (hr : ∀ pc, r'.pc = some pc → pc.Scanned cap r'.cursor ∧ pc.Sound s.file r'.cursor) :
    Inv cap { s with reader := Function.update s.reader r r' } := by
  refine ⟨h.file, h.ordered, fun q pc hpc => ?_⟩
  simp only at hpc ⊢
  rcases eq_or_ne q r with rfl | hne
  · rw [Function.update_self] at hpc ⊢
    exact hr pc hpc
  · rw [Function.update_of_ne hne] at hpc ⊢
    exact h.reader q pc hpc

theorem Inv.load (h : s.Inv cap) {r : ρ} {r' : HoleReader}
    (hstep : (s.reader r).step cap s.file.slots s.file.writeSeq = some r') :
    Inv cap { s with reader := Function.update s.reader r r' } := by
  apply h.update
  intro pc' hpc'
  unfold HoleReader.step at hstep
  split at hstep
  · cases hstep
  · next pc hpc =>
    obtain ⟨hscan, hsound⟩ := h.reader r pc hpc
    split at hstep
    · cases hstep
      cases hpc'
    · next pc₁ hgo =>
      cases hstep
      cases hpc'
      exact ⟨hscan.step hgo, hsound.step hscan h.file h.ordered hgo⟩
    · cases hstep
      cases hpc'

/-- **Every step keeps the invariant.** -/
theorem Inv.step (h : s.Inv cap) {a : SparseLabel ρ w ω} (hstep : s.step cap a = some s') :
    s'.Inv cap := by
  cases a with
  | writer a =>
    obtain ⟨file, hfile, rfl⟩ := Option.map_eq_some_iff.mp hstep
    exact h.writer (.of_step h.file.fits hfile)
  | call r cursor lappedTotal =>
    simp only [SparseSystem.step] at hstep
    split_ifs at hstep
    cases hstep
    apply h.update
    intro pc hpc
    cases hpc
    exact ⟨trivial, trivial⟩
  | reader r =>
    obtain ⟨r', hr', rfl⟩ := Option.map_eq_some_iff.mp hstep
    exact h.load hr'

/-- **Sparse readers skip only holes.** When `skip_hole` moves a cursor, the sequence it stood at
was never written and never will be, every retained sequence passed was looked at and not in its
slot, the cursor is at most just past the `write_seq` loaded, and the lapped count grows by the
distance. -/
theorem skips_only_holes [Inhabited ω]
    (hs : Transition.Reaches (SparseSystem.step cap) (SparseSystem.create ρ w ω) s) {r : ρ}
    (hstep : s.step cap (.reader r) = some s')
    (hmoved : (s'.reader r).cursor ≠ (s.reader r).cursor) :
    ∃ ws next examined, (s.reader r).pc = some (.scan ws next examined) ∧
      (s.reader r).cursor ∉ s'.file.written ∧ (s.reader r).cursor < s'.file.nextSeq ∧
      (∀ k, (s.reader r).cursor < k → k < (s'.reader r).cursor → ws < k + cap.val → k ≤ ws →
        ∃ word, (k, word) ∈ examined ∧ word ≠ k) ∧
      (s.reader r).cursor < (s'.reader r).cursor ∧ (s'.reader r).cursor ≤ ws + 1 ∧
      (s'.reader r).lappedTotal =
        (s.reader r).lappedTotal + ((s'.reader r).cursor - (s.reader r).cursor) := by
  have hinv := hs.invariant (fun h hstep => h.step hstep) (Inv.create cap)
  obtain ⟨r', hr', rfl⟩ := Option.map_eq_some_iff.mp hstep
  simp only [Function.update_self] at hmoved ⊢
  unfold HoleReader.step at hr'
  split at hr'
  · cases hr'
  · next pc hpc =>
    obtain ⟨hscan, hsound⟩ := hinv.reader r pc hpc
    split at hr'
    · cases hr'
      exact absurd rfl hmoved
    · cases hr'
      exact absurd rfl hmoved
    · next next hmove =>
      cases hr'
      -- the cursor moves at the end of a scan and nowhere else
      obtain ⟨ws, examined, rfl⟩ := HolePc.step_eq_move hmove
      obtain ⟨hcur, hlt, hle, hpassed⟩ := hscan
      obtain ⟨hws, hnot⟩ := hsound
      exact ⟨ws, next, examined, hpc, hnot, by omega,
        fun k hk hlt hret _ => hpassed k hk hret hlt, hlt, hle, rfl⟩

/-- The writer skips to sequence 3, writes and publishes it, and a reader at sequence 1 looks for
the next message. -/
def skipTwo : List (SparseLabel Unit 1 UInt8) :=
  [.writer (.call (.skipTo 3)), .writer (.call (.write fun _ => 7)), .writer .tick,
    .writer (.word onlyWord), .writer .tick, .writer (.call .publish), .call () 1 0, .reader (),
    .reader (), .reader ()]

theorem skips_only_holes_two : ∃ s s' : SparseSystem Unit 1 UInt8,
    Transition.run (SparseSystem.step ⟨4, 2, rfl⟩) (SparseSystem.create Unit 1 UInt8) skipTwo =
      some s ∧ s.step ⟨4, 2, rfl⟩ (.reader ()) = some s' ∧
    (s'.reader ()).cursor = 3 ∧ (s'.reader ()).lappedTotal = 2 ∧ 1 ∉ s'.file.written := by
  obtain ⟨s, hs⟩ : ∃ s, Transition.run (SparseSystem.step ⟨4, 2, rfl⟩)
      (SparseSystem.create Unit 1 UInt8) skipTwo = some s := ⟨_, rfl⟩
  obtain ⟨s', hstep⟩ : ∃ s', s.step ⟨4, 2, rfl⟩ (.reader ()) = some s' := by
    cases hs
    exact ⟨_, rfl⟩
  have hcur : (s.reader ()).cursor = 1 ∧ (s.reader ()).lappedTotal = 0 ∧
      (s'.reader ()).cursor = 3 := by
    cases hs
    cases hstep
    exact ⟨rfl, rfl, rfl⟩
  obtain ⟨ws, next, examined, -, hnot, -, -, -, -, hlapped⟩ :=
    skips_only_holes ⟨_, hs⟩ hstep (by rw [hcur.1, hcur.2.2]; decide)
  rw [hcur.1] at hnot
  rw [hcur.1, hcur.2.1, hcur.2.2] at hlapped
  exact ⟨s, s', hs, hstep, hcur.2.2, hlapped, hnot⟩

end SparseSystem

/-! ## Reading once nobody writes -/

namespace SourceRing

variable {ring : SourceRing w} {p : ℕ} {c : RingConsumer w UInt8}

/-- After 64 calls of `try_recv` the consumer has returned a message or moved its cursor. -/
def GetsOn (ring : SourceRing w) (c : RingConsumer w UInt8) : Prop :=
  ∃ enough, ∀ fuel, enough ≤ fuel → ∃ ds c',
    c.poll ring.cap ring.slots ring.writeSeq fuel 64 = some (ds, c') ∧
      (ds ≠ [] ∨ c.cursor < c'.cursor)

/-- Polling takes the consumer past everything published. -/
def GetsPast (ring : SourceRing w) (c : RingConsumer w UInt8) : Prop :=
  ∃ enough, ∀ fuel, enough ≤ fuel → ∃ n ds c',
    c.poll ring.cap ring.slots ring.writeSeq fuel n = some (ds, c') ∧
      ring.writeSeq + 1 ≤ c'.cursor

/-- No consumer of the ring that is behind `write_seq` stays where it is. -/
def NeverSticks (ring : SourceRing w) : Prop :=
  ∀ c : RingConsumer w UInt8, c.multiProducer = ring.multiProducer → c.sparse = ring.sparse →
    1 ≤ c.cursor → c.cursor ≤ ring.writeSeq → ring.GetsOn c ∧ ring.GetsPast c

/-- Beyond `bound` a consumer finds nothing to read and nothing to skip. -/
def Ends (ring : SourceRing w) (bound : ℕ) : Prop :=
  ∀ p, bound < p → ring.hop p = none ∧ ¬ ring.Skips p

theorem exists_ends (ring : SourceRing w) : ∃ bound, ring.Ends bound := by
  obtain ⟨bound, hbound⟩ := ring.exists_hop_eq_none
  refine ⟨max bound ring.writeSeq, fun p hp => ⟨hbound p (by omega), fun hskip => ?_⟩⟩
  have := hskip.le_writeSeq
  omega

variable {bound fuel : ℕ}

/-- The loop of `next_item` ends, and never goes back. -/
theorem Reads.nextOf_le (hend : ring.Ends bound) :
    ∀ (fuel : ℕ) {c : RingConsumer w UInt8} {p : ℕ} (skipped : ℕ), ring.Reads c p → 0 < fuel →
      bound + 1 < p + fuel → ∃ o n c' p', ring.nextOf fuel c skipped = some (o, n, c') ∧
        ring.Reads c' p' ∧ p ≤ p' := by
  intro fuel
  induction fuel with
  | zero =>
    intro c p skipped _ hpos
    exact absurd hpos (Nat.lt_irrefl 0)
  | succ fuel ih =>
    intro c p skipped hc _ hfuel
    obtain ⟨t, c', p', hturn, hc', hle, hlt⟩ := hc.turn_le
    cases t with
    | item d => exact ⟨_, _, c', p', nextOf_item hturn fuel skipped, hc', hle⟩
    | empty => exact ⟨_, _, c', p', nextOf_empty hturn fuel skipped, hc', hle⟩
    | skip n =>
      have hlt := hlt (by rintro ⟨⟩)
      -- a turn that goes on is not beyond the bound
      have hp : p ≤ bound := by
        by_contra hp
        obtain ⟨hhop, hskip⟩ := hend p (by omega)
        obtain ⟨c₁, hturn', -⟩ := hc.turn_stay hhop hskip
        rw [hturn] at hturn'
        cases hturn'
      obtain ⟨o, n', c₂, p₂, hnext, hc₂, hle₂⟩ := ih (skipped + n) hc' (by omega) (by omega)
      refine ⟨o, n', c₂, p₂, ?_, hc₂, by omega⟩
      rw [nextOf_skip hturn, hnext]

/-- Polling ends, and never goes back. -/
theorem Reads.pollOf_le (hend : ring.Ends bound) (hfuel : bound + 1 < fuel) :
    ∀ (n : ℕ) {c : RingConsumer w UInt8} {p : ℕ}, ring.Reads c p →
      ∃ ds c' p', ring.pollOf fuel n c = some (ds, c') ∧ ring.Reads c' p' ∧ p ≤ p' := by
  intro n
  induction n with
  | zero => exact fun {c p} hc => ⟨[], c, p, rfl, hc, le_refl p⟩
  | succ n ih =>
    intro c p hc
    obtain ⟨o, k, c₁, p₁, hnext, hc₁, hle₁⟩ := hc.nextOf_le hend fuel 0 (by omega) (by omega)
    obtain ⟨ds, c₂, p₂, hpoll, hc₂, hle₂⟩ := ih hc₁
    cases o with
    | none =>
      refine ⟨ds, c₂, p₂, ?_, hc₂, by omega⟩
      rw [pollOf_empty hnext, hpoll]
    | some d =>
      refine ⟨d :: ds, c₂, p₂, ?_, hc₂, by omega⟩
      rw [pollOf_item hnext, hpoll]
      rfl

/-- A poll whose first turn gets on. -/
theorem Reads.pollOf_of_turn (hend : ring.Ends bound) (hfuel : bound + 2 < fuel)
    {t : Turn (Payload w UInt8)} {c' : RingConsumer w UInt8} {p' : ℕ}
    (hturn : ring.turnOf c = (t, c')) (hne : t ≠ .empty) (hc' : ring.Reads c' p') (hlt : p < p')
    {n : ℕ} (hn : 0 < n) :
    ∃ ds c'' p'', ring.pollOf fuel n c = some (ds, c'') ∧ ring.Reads c'' p'' ∧ p < p'' := by
  obtain ⟨left, rfl⟩ : ∃ left, fuel = left + 1 := ⟨fuel - 1, by omega⟩
  obtain ⟨n, rfl⟩ : ∃ m, n = m + 1 := ⟨n - 1, by omega⟩
  cases t with
  | empty => exact absurd rfl hne
  | item d =>
    obtain ⟨ds, c₂, p₂, hpoll, hc₂, hle₂⟩ := hc'.pollOf_le hend (by omega : bound + 1 < left + 1) n
    refine ⟨d :: ds, c₂, p₂, ?_, hc₂, by omega⟩
    rw [pollOf_item (nextOf_item hturn left 0), hpoll]
    rfl
  | skip k =>
    obtain ⟨o, k', c₁, p₁, hnext, hc₁, hle₁⟩ :=
      hc'.nextOf_le hend left (0 + k) (by omega) (by omega)
    obtain ⟨ds, c₂, p₂, hpoll, hc₂, hle₂⟩ := hc₁.pollOf_le hend (by omega : bound + 1 < left + 1) n
    rw [← nextOf_skip hturn] at hnext
    cases o with
    | none =>
      refine ⟨ds, c₂, p₂, ?_, hc₂, by omega⟩
      rw [pollOf_empty hnext, hpoll]
    | some d =>
      refine ⟨d :: ds, c₂, p₂, ?_, hc₂, by omega⟩
      rw [pollOf_item hnext, hpoll]
      rfl

/-- A consumer skips with the poll that brings its counter to a multiple of 64. -/
theorem Reads.pollOf_skips (hend : ring.Ends bound) (hfuel : bound + 2 < fuel)
    (hskip : ring.Skips p) : ∀ (k : ℕ) {c : RingConsumer w UInt8} {n : ℕ}, ring.Reads c p →
      (c.emptyPolls + 1 + k) % 64 = 0 → k < n →
      ∃ ds c' p', ring.pollOf fuel n c = some (ds, c') ∧ ring.Reads c' p' ∧ p < p' := by
  intro k
  induction k with
  | zero =>
    intro c n hc hk hn
    rcases hc.turn_skips hskip with ⟨m, c₁, p₁, hturn, hc₁, hlt⟩ | ⟨hne, -⟩
    · exact pollOf_of_turn hend hfuel hturn (by rintro ⟨⟩) hc₁ hlt hn
    · exact absurd hk hne
  | succ k ih =>
    intro c n hc hk hn
    rcases hc.turn_skips hskip with ⟨m, c₁, p₁, hturn, hc₁, hlt⟩ | ⟨-, c₁, hturn, hc₁, hpolls⟩
    · exact pollOf_of_turn hend hfuel hturn (by rintro ⟨⟩) hc₁ hlt (by omega)
    · obtain ⟨left, rfl⟩ : ∃ left, fuel = left + 1 := ⟨fuel - 1, by omega⟩
      obtain ⟨n, rfl⟩ : ∃ m, n = m + 1 := ⟨n - 1, by omega⟩
      rw [pollOf_empty (nextOf_empty hturn left 0)]
      exact ih hc₁ (by rw [hpolls]; omega) (by omega)

/-- **Where there is a message, a later one or a hole, 64 calls get a consumer on.** -/
theorem Reads.pollOf_gets_on (hend : ring.Ends bound) (hfuel : bound + 2 < fuel)
    (hc : ring.Reads c p) (h : ring.hop p ≠ none ∨ ring.Skips p) :
    ∃ ds c' p', ring.pollOf fuel 64 c = some (ds, c') ∧ ring.Reads c' p' ∧ p < p' := by
  rcases h with hhop | hskip
  · obtain ⟨⟨o, p'⟩, hhop⟩ := Option.ne_none_iff_exists'.mp hhop
    have hlt := lt_of_hop hhop
    cases o with
    | some d =>
      obtain ⟨c', hturn, hc'⟩ := hc.turn_item hhop
      exact pollOf_of_turn hend hfuel hturn (by rintro ⟨⟩) hc' hlt (by decide)
    | none =>
      obtain ⟨n, c', hturn, hc'⟩ := hc.turn_jump hhop
      exact pollOf_of_turn hend hfuel hturn (by rintro ⟨⟩) hc' hlt (by decide)
  · exact hc.pollOf_skips hend hfuel hskip (63 - c.emptyPolls % 64) (by omega) (by omega)

/-- Getting on at every published sequence takes a consumer past them all. -/
theorem Reads.pollOf_gets_past (hend : ring.Ends bound) (hfuel : bound + 2 < fuel)
    (h : ∀ q, 1 ≤ q → q ≤ ring.writeSeq → ring.hop q ≠ none ∨ ring.Skips q) :
    ∀ (left : ℕ) {c : RingConsumer w UInt8} {p : ℕ}, ring.Reads c p → 1 ≤ p →
      ring.writeSeq + 1 ≤ p + left →
      ∃ n ds c', ring.pollOf fuel n c = some (ds, c') ∧ ring.writeSeq + 1 ≤ c'.cursor := by
  intro left
  induction left with
  | zero =>
    intro c p hc _ hleft
    exact ⟨0, [], c, rfl, by rw [hc.cursor]; omega⟩
  | succ left ih =>
    intro c p hc hpos hleft
    rcases Nat.lt_or_ge ring.writeSeq p with hlt | hle
    · exact ⟨0, [], c, rfl, by rw [hc.cursor]; omega⟩
    · obtain ⟨ds, c', p', hpoll, hc', hlt⟩ := hc.pollOf_gets_on hend hfuel (h p hpos hle)
      obtain ⟨n, es, c'', hrest, hpast⟩ := ih hc' (by omega) (by omega)
      refine ⟨64 + n, ds ++ es, c'', ?_, hpast⟩
      rw [pollOf_add n hpoll, hrest]
      rfl

/-- **No consumer sticks exactly when every published sequence is in its slot, overwritten, or a
hole.** -/
theorem neverSticks_iff (ring : SourceRing w) :
    ring.NeverSticks ↔
      ∀ p, 1 ≤ p → p ≤ ring.writeSeq → ring.hop p ≠ none ∨ ring.Skips p := by
  obtain ⟨bound, hend⟩ := ring.exists_ends
  constructor
  · intro hsticks p hpos hle
    by_contra hnot
    obtain ⟨hhop, hskip⟩ := not_or.mp hnot
    -- a consumer that stands there and finds nothing
    have hc : ring.Reads (RingConsumer.attach ring.multiProducer ring.sparse false p 0) p :=
      ⟨rfl, rfl, rfl⟩
    obtain ⟨⟨enough, hon⟩, -⟩ := hsticks _ hc.multiProducer hc.sparse hpos hle
    obtain ⟨ds, c', hpoll, hgot⟩ := hon (enough + 1) (Nat.le_succ enough)
    obtain ⟨c₁, hstay, hc₁⟩ := (Path.stop (not_not.mp hhop)).poll hskip hc
      (by omega : p < p + (enough + 1)) (Nat.zero_lt_succ 63)
    rw [pollOf, hpoll] at hstay
    cases hstay
    rcases hgot with hds | hlt
    · exact hds rfl
    · rw [hc₁.cursor, hc.cursor] at hlt
      exact Nat.lt_irrefl p hlt
  · intro h c hm hsp hpos hle
    have hc : ring.Reads c c.cursor := ⟨hm, hsp, rfl⟩
    refine ⟨⟨bound + 3, fun fuel hfuel => ?_⟩, ⟨bound + 3, fun fuel hfuel => ?_⟩⟩
    · obtain ⟨ds, c', p', hpoll, hc', hlt⟩ := hc.pollOf_gets_on hend hfuel (h _ hpos hle)
      exact ⟨ds, c', hpoll, .inr (by rw [hc'.cursor]; exact hlt)⟩
    · exact hc.pollOf_gets_past hend hfuel h (ring.writeSeq + 1) hpos (by omega)

end SourceRing

/-- A step of the writer, or its death and the adoption of the file by the next one. -/
inductive FileEvent (w : ℕ) (ω : Type) where
  | writer (a : FileLabel w ω)
  | crash

namespace MirrorFile

/-- One step of a mirror ring whose writers may die. -/
def stepOrAdopt (cap : Capacity) (s : MirrorFile w ω) : FileEvent w ω → Option (MirrorFile w ω)
  | .writer a => s.step cap a
  | .crash => some s.adopt

/-- The ring as its readers find it: one producer, `FLAG_SPARSE`. -/
def ring (cap : Capacity) (s : MirrorFile w UInt8) : SourceRing w :=
  ⟨cap, s.slots, s.writeSeq, none, false, true⟩

/-- No slot of a published sequence is marked. -/
def Unmarked (cap : Capacity) (s : MirrorFile w ω) : Prop :=
  ∀ k, 1 ≤ k → k ≤ s.writeSeq → (s.slots (slotIndex cap k)).seq ≠ slotWriting

theorem Inv.stepOrAdopt {cap : Capacity} {s s' : MirrorFile w ω} {e : FileEvent w ω}
    (h : s.Inv cap) (hstep : s.stepOrAdopt cap e = some s') : s'.Inv cap := by
  cases e with
  | writer a => exact h.step (.of_step h.fits hstep)
  | crash =>
    cases hstep
    exact h.adopt

variable {cap : Capacity} {s s' : MirrorFile w UInt8}

/-- In a mirror ring a published sequence is in its slot, overwritten or a hole, unless its slot is
marked. -/
theorem Inv.hop_or_skips_iff (h : s.Inv cap) {k : ℕ} (hpos : 1 ≤ k) (hle : k ≤ s.writeSeq) :
    ((s.ring cap).hop k ≠ none ∨ (s.ring cap).Skips k) ↔
      (s.slots (slotIndex cap k)).seq ≠ slotWriting := by
  have hpub := h.published
  have hfits := h.fits
  have hk : k ≠ slotWriting := by
    unfold slotWriting
    omega
  constructor
  · rintro (hhop | hskip) hmark
    · have hread : readSlot (s.slots (slotIndex cap k)) k = .pending := by
        rw [readSlot_eq, hmark, if_neg hk.symm, if_pos (.inl rfl)]
      exact hhop (SourceRing.hop_of_pending hread)
    · exact hskip.2.2.1 hmark
  · intro hmark
    rcases Nat.lt_trichotomy (s.slots (slotIndex cap k)).seq k with hlt | heq | hgt
    · exact .inr ⟨rfl, hle, hmark, hlt⟩
    · left
      have hread : readSlot ((s.ring cap).slot k) k = .item (s.slots (slotIndex cap k)).data := by
        show readSlot (s.slots (slotIndex cap k)) k = _
        rw [readSlot_eq, if_pos heq]
      rw [SourceRing.hop_of_item hread]
      rintro ⟨⟩
    · left
      -- the word is a later sequence of the same slot, so at least a full ring later
      have hidx : slotIndex cap (s.slots (slotIndex cap k)).seq = slotIndex cap k := by
        rcases h.word (slotIndex cap k) with h0 | hm | ⟨-, hidx⟩
        · omega
        · exact absurd hm hmark
        · exact hidx
      have hfull := add_capacity_le hidx.symm hgt
      have hresync : k < (s.ring cap).resync (s.slots (slotIndex cap k)).seq := by
        apply (lt_oldestRetained hpos).mpr
        exact hfull.trans (le_max_right _ _)
      have hread : readSlot ((s.ring cap).slot k) k =
          .overwritten (s.slots (slotIndex cap k)).seq := by
        show readSlot (s.slots (slotIndex cap k)) k = _
        rw [readSlot_eq, if_neg (by omega), if_neg (not_or.mpr ⟨hmark, by omega⟩)]
      rw [SourceRing.hop_of_overwritten hread hresync]
      rintro ⟨⟩

theorem Inv.neverSticks_iff (h : s.Inv cap) : (s.ring cap).NeverSticks ↔ s.Unmarked cap := by
  rw [SourceRing.neverSticks_iff]
  constructor
  · exact fun hgo k hpos hle => (h.hop_or_skips_iff hpos hle).mp (hgo k hpos hle)
  · exact fun hun k hpos hle => (h.hop_or_skips_iff hpos hle).mpr (hun k hpos hle)

/-! ### Writers that die between two slots -/

/-- The only marked slot is the one being written. -/
def MarkedOnly (cap : Capacity) (s : MirrorFile w ω) : Prop :=
  ∀ i, (s.slots i).seq = slotWriting → s.storing = true ∧ i = slotIndex cap s.nextSeq

theorem MarkedOnly.create [Inhabited ω] (cap : Capacity) :
    (MirrorFile.create w ω).MarkedOnly cap := by
  intro i hi
  exact absurd hi (by decide : (0 : ℕ) ≠ slotWriting)

theorem MarkedOnly.step {s s' : MirrorFile w ω} (h : s.MarkedOnly cap) (hinv : s.Inv cap)
    (hmove : Move cap s s') : s'.MarkedOnly cap := by
  cases hmove with
  | begin job fits idle eq =>
    subst eq
    intro i hi
    have hst := (h i hi).1
    simp only [storing, idle] at hst
    cases hst
  | publish idle eq =>
    subst eq
    exact h
  | skip seq fits le idle eq =>
    subst eq
    intro i hi
    have hst := (h i hi).1
    simp only [storing, idle] at hst
    cases hst
  | mark job pc eq =>
    subst eq
    intro i hi
    refine ⟨rfl, ?_⟩
    by_contra hne
    simp only at hi hne
    rw [storeSeq_of_ne _ _ hne] at hi
    have hst := (h i hi).1
    simp only [storing, pc] at hst
    cases hst
  | word job left ref left' ref' j x pc stored eq =>
    subst eq
    intro i hi
    simp only at hi
    rw [storeWord_seq] at hi
    exact ⟨rfl, (h i hi).2⟩
  | store job pc eq =>
    subst eq
    intro i hi
    -- the mark of the slot written is gone, and there was no other
    exfalso
    simp only at hi
    rcases eq_or_ne i (slotIndex cap s.nextSeq) with rfl | hne
    · have hroom := hinv.room (by rw [pc]; rintro ⟨⟩)
      rw [storeSeq_self] at hi
      exact absurd hi hroom.ne
    · rw [storeSeq_of_ne _ _ hne] at hi
      exact hne (h i hi).2

theorem MarkedOnly.unmarked {s : MirrorFile w ω} (h : s.MarkedOnly cap) (hidle : s.pc = .idle) :
    s.Unmarked cap := by
  intro k _ _ hmark
  have hst := (h _ hmark).1
  simp only [storing, hidle] at hst
  cases hst

/-- A writer does not die while it has a slot marked. -/
def BetweenSlots (s : MirrorFile w ω) (e : FileEvent w ω) : Prop :=
  e = .crash → s.storing = false

theorem MarkedOnly.stepOrAdopt {s s' : MirrorFile w ω} {e : FileEvent w ω} (h : s.MarkedOnly cap)
    (hinv : s.Inv cap) (hok : s.BetweenSlots e) (hstep : s.stepOrAdopt cap e = some s') :
    s'.MarkedOnly cap := by
  cases e with
  | writer a => exact h.step hinv (.of_step hinv.fits hstep)
  | crash =>
    cases hstep
    intro i hi
    have hst := (h i hi).1
    rw [hok rfl] at hst
    cases hst

/-- **Readers of a mirror ring nobody writes get on exactly when no slot of a published sequence is
left marked.** So they do in every quiescent state of a run whose writers never die with a slot
marked. -/
theorem readers_progress (w : ℕ) (cap : Capacity) :
    (∀ s : MirrorFile w UInt8,
      Transition.Reaches (MirrorFile.stepOrAdopt cap) (MirrorFile.create w UInt8) s →
      ((s.ring cap).NeverSticks ↔ s.Unmarked cap)) ∧
    (∀ s : MirrorFile w UInt8,
      Transition.ReachesBy BetweenSlots (MirrorFile.stepOrAdopt cap) (MirrorFile.create w UInt8) s →
      s.pc = .idle → (s.ring cap).NeverSticks) := by
  constructor
  · intro s hs
    have hinv := hs.invariant (fun h hstep => h.stepOrAdopt hstep) (Inv.create cap)
    exact hinv.neverSticks_iff
  · intro s hs hidle
    have hboth : s.Inv cap ∧ s.MarkedOnly cap := by
      refine hs.invariant (P := fun s => s.Inv cap ∧ s.MarkedOnly cap) (fun h hok hstep => ?_)
        ⟨Inv.create cap, MarkedOnly.create cap⟩
      exact ⟨h.1.stepOrAdopt hstep, h.2.stepOrAdopt h.1 hok hstep⟩
    exact hboth.1.neverSticks_iff.mpr (hboth.2.unmarked hidle)

/-- A writer stores sequence 1 and dies before it is published; the next one skips to sequence 3
and publishes it. -/
def dieStored : List (FileEvent 1 UInt8) :=
  [.writer (.call (.write fun _ => 1)), .writer .tick, .writer (.word onlyWord), .writer .tick,
    .crash, .writer (.call (.skipTo 3)), .writer (.call (.write fun _ => 3)), .writer .tick,
    .writer (.word onlyWord), .writer .tick, .writer (.call .publish)]

theorem readers_progress_stored : ∃ s : MirrorFile 1 UInt8,
    Transition.run (MirrorFile.stepOrAdopt ⟨2, 1, rfl⟩) (MirrorFile.create 1 UInt8) dieStored =
      some s ∧ s.writeSeq = 3 ∧ s.Unmarked ⟨2, 1, rfl⟩ ∧ (s.ring ⟨2, 1, rfl⟩).NeverSticks := by
  obtain ⟨s, hs⟩ : ∃ s, Transition.run (MirrorFile.stepOrAdopt ⟨2, 1, rfl⟩)
      (MirrorFile.create 1 UInt8) dieStored = some s := ⟨_, rfl⟩
  have hfacts : s.writeSeq = 3 ∧ (s.slots 0).seq = 0 ∧ (s.slots 1).seq = 3 := by
    cases hs
    exact ⟨rfl, rfl, rfl⟩
  have hun : s.Unmarked ⟨2, 1, rfl⟩ := by
    intro k _ _
    rw [slotIndex_eq_mod]
    rcases Nat.mod_two_eq_zero_or_one k with hk | hk
    · rw [hk, hfacts.2.1]
      decide
    · rw [hk, hfacts.2.2]
      decide
  exact ⟨s, hs, hfacts.1, hun, ((readers_progress 1 ⟨2, 1, rfl⟩).1 s ⟨_, hs⟩).mpr hun⟩

/-- A writer dies with the slot of sequence 1 marked; the next one skips to sequence 2 and
publishes it. -/
def dieMarked : List (FileEvent 1 UInt8) :=
  [.writer (.call (.write fun _ => 1)), .writer .tick, .crash, .writer (.call (.skipTo 2)),
    .writer (.call (.write fun _ => 2)), .writer .tick, .writer (.word onlyWord), .writer .tick,
    .writer (.call .publish)]

theorem reader_sticks : ∃ s : MirrorFile 1 UInt8,
    Transition.run (MirrorFile.stepOrAdopt ⟨2, 1, rfl⟩) (MirrorFile.create 1 UInt8) dieMarked =
      some s ∧ s.pc = .idle ∧ s.writeSeq = 2 ∧ ¬ (s.ring ⟨2, 1, rfl⟩).NeverSticks := by
  obtain ⟨s, hs⟩ : ∃ s, Transition.run (MirrorFile.stepOrAdopt ⟨2, 1, rfl⟩)
      (MirrorFile.create 1 UInt8) dieMarked = some s := ⟨_, rfl⟩
  have hfacts : s.pc = .idle ∧ s.writeSeq = 2 ∧
      (s.slots (slotIndex ⟨2, 1, rfl⟩ 1)).seq = slotWriting := by
    cases hs
    exact ⟨rfl, rfl, rfl⟩
  have hinv : s.Inv ⟨2, 1, rfl⟩ := Transition.Reaches.invariant
    (fun h hstep => h.stepOrAdopt hstep) ⟨_, hs⟩ (Inv.create _)
  refine ⟨s, hs, hfacts.1, hfacts.2.1, fun hgo => ?_⟩
  exact hinv.neverSticks_iff.mp hgo 1 (le_refl 1) (by rw [hfacts.2.1]; decide) hfacts.2.2

end MirrorFile

end Ringfire
