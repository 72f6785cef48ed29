import Ringfire.Mpmc.System
import Ringfire.Ring.Seek
import Ringfire.Ring.System

/-!
# Positions a caller chooses

A consumer can be placed anywhere in `u64`: by `ConsumerStartMode::Sequence`, by a stored
checkpoint, and by `seek`. `u64::MAX` is also the word of a slot that is being written, so a
consumer placed there takes a half-written payload for its message; and `saved_seq + 1`,
`cursor + 1` and, with several producers, `cursor + capacity` leave `u64` near its end.

A consumer relies on its writers as far as `View.Truthful` and `View.Evolves` say, so the result is
proved once for any such writers and then used for a `RingProducer` and for `MpmcProducer`s.

## Main definitions

* `RingWriter`: writers a reader can rely on
* `PlacedReader.step`: one memory access of a consumer that a caller places
* `PlacedReader.Overflows`: the next access adds beyond `u64`

## Main results

* `RingWriter.PlacedSystemInv.run`: up to the last position from which nothing overflows a consumer
  returns complete messages only, and overflows nothing
* `positions_safe`: the same next to one producer and next to several
* `position_torn`: what a consumer at `u64::MAX` returns
-/

namespace Ringfire

variable {w : ℕ} {ω : Type}

/-- The writers of a ring: their states `σ`, their memory accesses `ι`, and what a reader sees. -/
structure RingWriter (w : ℕ) (ω σ ι : Type) where
  step : σ → ι → Option σ
  view : σ → View w ω
  Inv : σ → Prop
  keeps : ∀ {s a s'}, Inv s → step s a = some s' → Inv s'
  truthful : ∀ {s}, Inv s → (view s).Truthful
  evolves : ∀ {s a s'}, Inv s → step s a = some s' → (view s).Evolves (view s')

/-- A consumer that a caller places: inside `attach_with_options` with a start position, or
attached. -/
inductive PlacedReader (w : ℕ) (ω : Type) where
  | opening (start : StartPosition)
  | attached (x : SeekingConsumer w ω)

/-- A step of such a consumer: `attach_with_options` up to the registration, or a step of the
attached consumer. -/
inductive PlacedLabel (w : ℕ) where
  | attach
  | reader (a : SeekLabel w)

/-- The kind of ring, and whether the consumer got a registry slot. -/
structure PlacedConfig where
  cap : Capacity
  multiProducer : Bool
  sparse : Bool
  registered : Bool

namespace PlacedReader

/-- One memory access. -/
def step [Inhabited ω] (cfg : PlacedConfig) (v : View w ω) :
    PlacedReader w ω → PlacedLabel w → Option (PlacedReader w ω)
  | opening start, .attach =>
    if (resolveStart cfg.cap v.writeSeq start).1 ≤ u64Max then
      some (attached ⟨.attach cfg.multiProducer cfg.sparse cfg.registered
        (resolveStart cfg.cap v.writeSeq start).1 (resolveStart cfg.cap v.writeSeq start).2, none⟩)
    else none
  | attached x, .reader a =>
    (x.step cfg.cap v.slots v.writeSeq a).map fun (x', _) => attached x'
  | _, _ => none

/-- The next access adds beyond `u64`. -/
def Overflows [Inhabited ω] (cap : Capacity) (v : View w ω) : PlacedReader w ω → Prop
  | opening (.checkpoint saved) => u64Max < saved + 1
  | opening _ => False
  | attached x =>
    match x.reader.pc with
    -- `self.cursor += 1` in `next_item`
    | .reading _ _ rd =>
      (∃ d, rd.step (v.slots (slotIndex cap x.reader.cursor)) x.reader.cursor none =
        some (.done (.item d))) ∧ u64Max < x.reader.cursor + 1
    -- `self.cursor + self.capacity` in `next_item`
    | .staleLoad _ _ => u64Max < x.reader.cursor + cap.val
    -- `self.cursor + 1` in `skip_hole`
    | .holeSeen _ _ _ =>
      ¬ ((v.slots (slotIndex cap x.reader.cursor)).seq = slotWriting ∨
        x.reader.cursor ≤ (v.slots (slotIndex cap x.reader.cursor)).seq) ∧
        u64Max < x.reader.cursor + 1
    | _ => False

/-- The last position from which no addition overflows. -/
def last (cfg : PlacedConfig) : ℕ :=
  if cfg.multiProducer then u64Max - cfg.cap.val else u64Max - 1

/-- A start position up to `last`. -/
def StartWithin (last : ℕ) : StartPosition → Prop
  | .sequence seq => seq ≤ last
  | .checkpoint saved => saved + 1 ≤ last
  | .latest | .head | .oldest => True

/-- The caller places the consumer at positions up to `last` only. -/
def Within (last : ℕ) (a : PlacedLabel w) : Prop :=
  ∀ target, a = .reader (.seek target) → target ≤ last

/-- What is promised of a consumer: it has returned complete messages only, each under its
sequence, and its next access overflows nothing. -/
def Safe [Inhabited ω] (cap : Capacity) (v : View w ω) (x : PlacedReader w ω) : Prop :=
  ¬ x.Overflows cap v ∧
    match x with
    | opening _ => True
    | attached x => ∀ k d, (k, d) ∈ x.reader.delivered → v.stored k ∧ v.message k = some d

end PlacedReader

/-- The writers next to one consumer. -/
structure PlacedSystem (w : ℕ) (ω σ : Type) where
  writer : σ
  reader : PlacedReader w ω

/-- Who moves. -/
inductive PlacedSystemLabel (w : ℕ) (ι : Type) where
  | writer (a : ι)
  | reader (a : PlacedLabel w)

/-- One memory access of a writer or of the consumer. -/
def PlacedSystem.step [Inhabited ω] {σ ι : Type} (W : RingWriter w ω σ ι) (cfg : PlacedConfig)
    (s : PlacedSystem w ω σ) : PlacedSystemLabel w ι → Option (PlacedSystem w ω σ)
  | .writer a => (W.step s.writer a).map fun writer => { s with writer := writer }
  | .reader a =>
    (s.reader.step cfg (W.view s.writer) a).map fun reader => { s with reader := reader }

/-! ## What holds up to the last position -/

/-- What the places inside `next_item` know that matter for a sum or a hole. -/
def PlaceWithin (cfg : PlacedConfig) (last cursor : ℕ) : ConsumerPc w ω → Prop
  | .staleLoad _ _ => cfg.multiProducer = true
  | .holeSeen _ _ ws => cursor ≤ ws ∧ ws < last
  | .holeScan _ _ ws next => ws < last ∧ next ≤ ws + 1 ∧ 1 ≤ next
  | _ => True

/-- What holds of a consumer that stays within `last`. -/
structure PlacedInv (cfg : PlacedConfig) (last : ℕ) (v : View w ω) (c : RingConsumer w ω) :
    Prop where
  one_le : 1 ≤ c.cursor
  within : c.cursor ≤ last
  multi : c.multiProducer = cfg.multiProducer
  pc : c.PcSound cfg.cap v
  place : PlaceWithin cfg last c.cursor c.pc
  delivered : ∀ k d, (k, d) ∈ c.delivered → v.stored k ∧ v.message k = some d

/-- Nothing from `last` on has been stored. -/
def View.Below (last : ℕ) (v : View w ω) : Prop := ∀ k, v.stored k → k < last

namespace PlacedInv

variable {cfg : PlacedConfig} {last cursor : ℕ} {v v' : View w ω} {c c' : RingConsumer w ω}

theorem oldestRetained_le_last {ws capacity : ℕ} (hpos : 1 ≤ last) (hws : ws < last) :
    oldestRetained ws capacity ≤ last :=
  (oldestRetained_le hpos).mpr (hws.trans_le (Nat.le_add_right last capacity))

theorem writeSeq_lt (hv : v.Truthful) (hpos : 1 ≤ last) (hbelow : v.Below last) :
    v.writeSeq < last := by
  rcases hv.writeSeq with h0 | hstored
  · omega
  · exact hbelow _ hstored

theorem evolves (h : PlacedInv cfg last v c) (he : v.Evolves v') : PlacedInv cfg last v' c :=
  ⟨h.one_le, h.within, h.multi, h.pc.evolves he, h.place, fun k d hmem =>
    ⟨he.stored k (h.delivered k d hmem).1, he.message k d (h.delivered k d hmem).2⟩⟩

/-- A consumer at a slot has computed nothing yet. -/
theorem place_of_atSlot {pc : ConsumerPc w ω} (h : pc.AtSlot) : PlaceWithin cfg last cursor pc := by
  cases h <;> trivial

/-- The cursor stays. -/
theorem stay (h : PlacedInv cfg last v c) (haccount : c'.toAccount = c.toAccount)
    (hmode : c'.mode = c.mode) (hpc : c'.PcSound cfg.cap v)
    (hplace : PlaceWithin cfg last c.cursor c'.pc) : PlacedInv cfg last v c' := by
  refine ⟨by rw [haccount]; exact h.one_le, by rw [haccount]; exact h.within,
    (congrArg (fun m => m.1) hmode).trans h.multi, hpc, ?_, by rw [haccount]; exact h.delivered⟩
  rw [haccount]
  exact hplace

theorem giveUp (h : PlacedInv cfg last v c) (call : Receive) :
    PlacedInv cfg last v (c.giveUp call) :=
  have hslot := RingConsumer.giveUp_atSlot c call
  h.stay (RingConsumer.giveUp_account c call) (RingConsumer.giveUp_mode c call)
    (RingConsumer.pcSound_of_atSlot hslot) (place_of_atSlot hslot)

/-- The cursor moves to `target` without a message. -/
theorem move (h : PlacedInv cfg last v c) {target : ℕ} (hcursor : c'.cursor = target)
    (hdelivered : c'.delivered = c.delivered) (hmode : c'.mode = c.mode) (hslot : c'.pc.AtSlot)
    (hpos : 1 ≤ target) (hle : target ≤ last) : PlacedInv cfg last v c' :=
  ⟨hcursor ▸ hpos, hcursor ▸ hle, (congrArg (fun m => m.1) hmode).trans h.multi,
    RingConsumer.pcSound_of_atSlot hslot, place_of_atSlot hslot, hdelivered ▸ h.delivered⟩

theorem jumpTo (h : PlacedInv cfg last v c) {target : ℕ} (hle : target ≤ last) :
    PlacedInv cfg last v (c.jumpTo target) := by
  have hslot := RingConsumer.jumpTo_atSlot c target
  have hmode := RingConsumer.jumpTo_mode c target
  unfold RingConsumer.jumpTo at *
  split_ifs at * with hlt
  · exact h.move rfl rfl hmode hslot (Nat.one_le_of_lt hlt) hle
  · exact h.stay rfl hmode (RingConsumer.pcSound_of_atSlot hslot) trivial

/-- **A consumer's step keeps it within the last position**, as long as nothing from there on has
been stored. -/
theorem step [Inhabited ω] (h : PlacedInv cfg last v c) (hv : v.Truthful) (hpos : 1 ≤ last)
    (hmax : last < u64Max) (hbelow : v.Below last) {a : ConsumerLabel w} {stored : Option ℕ}
    (hstep : c.step cfg.cap v.slots v.writeSeq a = some (c', stored)) :
    PlacedInv cfg last v c' := by
  have hsound := h.pc.step hv h.one_le hstep
  have hmode := RingConsumer.step_mode hstep
  have hws := writeSeq_lt hv hpos hbelow
  have hplace := h.place
  have hpc₀ := h.pc
  unfold RingConsumer.step at hstep
  split at hstep
  case h_1 call hpc =>
    cases hstep
    refine h.stay (RingConsumer.start_account c call) hmode hsound ?_
    cases call with
    | recvStatus | jumpToLatest | jumpToOldest => trivial
    | recvBatch room =>
      cases room with
      | zero =>
        simp only [RingConsumer.start, hpc]
        trivial
      | succ room => trivial
  case h_2 call skipped rd i hpc =>
    split at hstep <;> cases hstep
    exact h.stay rfl hmode hsound trivial
  case h_3 call skipped rd hpc =>
    split at hstep
    case h_1 r hr =>
      obtain ⟨c'', hc, he⟩ := Option.map_eq_some_iff.mp hstep
      cases he
      cases r with
      | item data =>
        simp only [RingConsumer.afterRead] at hc
        split_ifs at hc
        cases hc
        -- below `u64::MAX` the word is no mark, and what it names has been stored
        have hne : c.cursor ≠ slotWriting := (h.within.trans_lt hmax).ne
        have hstored : v.stored c.cursor := by
          have hword := ReadPc.step_item hr
          rcases hv.word (slotIndex cfg.cap c.cursor) with h0 | hm | ⟨hst, -, -⟩
          · have hone := h.one_le
            omega
          · exact absurd (hword.symm.trans hm) hne
          · exact hword ▸ hst
        have hmsg := RingConsumer.Effect.message hv h.one_le hne hpc₀ hpc hr
        have haccount := RingConsumer.deliver_account c skipped data call
        refine ⟨?_, ?_, (congrArg (fun m => m.1) hmode).trans h.multi, hsound,
          place_of_atSlot (RingConsumer.deliver_atSlot c skipped data call), fun k d hmem => ?_⟩
        · rw [haccount]
          exact Nat.le_succ_of_le h.one_le
        · rw [haccount]
          exact hbelow _ hstored
        · rw [haccount] at hmem
          rcases List.mem_append.mp hmem with hmem | hmem
          · exact h.delivered k d hmem
          · obtain ⟨rfl, rfl⟩ := Prod.mk.inj (List.mem_singleton.mp hmem)
            exact ⟨hstored, hmsg⟩
      | overwritten seen =>
        cases hc
        exact h.stay rfl hmode hsound trivial
      | pending =>
        simp only [RingConsumer.afterRead] at hc
        split_ifs at hc with hmulti hsparse hpoll <;> cases hc
        · exact h.stay rfl hmode hsound (h.multi.symm.trans hmulti)
        · exact h.stay rfl hmode hsound trivial
        · exact h.stay (by rw [RingConsumer.giveUp_account]) hmode hsound
            (place_of_atSlot (RingConsumer.giveUp_atSlot _ call))
        · exact h.giveUp call
    case h_2 rd' hne hr =>
      cases hstep
      exact h.stay rfl hmode hsound trivial
    case h_3 => cases hstep
  -- `skip_overwritten`: what was seen in the slot had been stored
  case h_4 site call skipped seen hpc =>
    cases hstep
    have hseen : max v.writeSeq seen < last := by
      unfold RingConsumer.PcSound at hpc₀
      rw [hpc] at hpc₀
      rcases hpc₀ with rfl | hst
      · rwa [Nat.max_zero]
      · exact max_lt hws (hbelow seen hst)
    unfold RingConsumer.skipOverwritten at hmode hsound ⊢
    split_ifs at hmode hsound ⊢ with hlt
    · exact h.move rfl rfl hmode (RingConsumer.settle_atSlot _ _) (one_le_oldestRetained _ _)
        (oldestRetained_le_last hpos hseen)
    · cases site with
      | overwritten =>
        exact h.giveUp call
      | stale => exact h.stay rfl hmode hsound trivial
      | attach => exact h.stay rfl hmode hsound trivial
  case h_5 call skipped hpc =>
    split_ifs at hstep <;> cases hstep
    · exact h.stay rfl hmode hsound trivial
    · exact h.giveUp call
  -- `skip_hole`
  case h_6 call skipped hpc =>
    split_ifs at hstep with hlt <;> cases hstep
    · exact h.giveUp call
    · exact h.stay rfl hmode hsound ⟨Nat.not_lt.mp hlt, hws⟩
  case h_7 call skipped ws hpc =>
    rw [hpc] at hplace
    obtain ⟨hcur, hlast⟩ := hplace
    split_ifs at hstep <;> cases hstep
    · exact h.giveUp call
    · have hold : oldestRetained ws cfg.cap.val ≤ ws + 1 :=
        oldestRetained_le_last (Nat.le_add_left 1 ws) (Nat.lt_succ_self ws)
      exact h.stay rfl hmode hsound
        ⟨hlast, max_le hold (Nat.succ_le_succ hcur), le_max_of_le_right (Nat.le_add_left 1 _)⟩
  case h_8 call skipped ws next hpc =>
    rw [hpc] at hplace
    obtain ⟨hlast, hnext, hone⟩ := hplace
    split_ifs at hstep with hgo <;> cases hstep
    · exact h.stay rfl hmode hsound ⟨hlast, Nat.succ_le_succ hgo.1, Nat.le_add_left 1 next⟩
    · exact h.move rfl rfl hmode (RingConsumer.settle_atSlot _ _) hone (hnext.trans hlast)
  -- the registered cursor, and the two jumps
  case h_9 resume hpc =>
    cases hstep
    exact h.stay rfl hmode hsound (by cases resume <;> trivial)
  case h_10 hpc =>
    cases hstep
    exact h.jumpTo hws.le
  case h_11 hpc =>
    cases hstep
    exact h.jumpTo (oldestRetained_le_last hpos hws)
  case h_12 => cases hstep

/-- So does `seek` to a position up to the last one. -/
theorem seekTo (h : PlacedInv cfg last v c) (hpos : 1 ≤ last) (hws : v.writeSeq < last)
    {target : ℕ} (hle : target ≤ last) :
    PlacedInv cfg last v (c.seekTo cfg.cap v.writeSeq target) := by
  unfold RingConsumer.seekTo
  dsimp only
  split_ifs with hold
  · exact h.move rfl rfl rfl (RingConsumer.settle_atSlot _ none)
      (one_le_oldestRetained _ _) (oldestRetained_le_last hpos hws)
  · exact h.move rfl rfl rfl (RingConsumer.settle_atSlot _ none)
      (le_max_right target 1) (max_le hle hpos)

theorem attach {cursor lappedTotal : ℕ} (hone : 1 ≤ cursor) (hle : cursor ≤ last) :
    PlacedInv cfg last v
      (.attach cfg.multiProducer cfg.sparse cfg.registered cursor lappedTotal) := by
  refine ⟨hone, hle, rfl, ?_, ?_, by rintro k d ⟨⟩⟩
  · unfold RingConsumer.PcSound RingConsumer.attach
    cases cfg.registered with
    | true => exact .inl rfl
    | false => trivial
  · unfold RingConsumer.attach
    cases cfg.registered <;> trivial

/-- Up to the last position nothing overflows. -/
theorem not_overflows [Inhabited ω] (hcap : cfg.cap.val ≤ u64Max)
    (h : PlacedInv cfg (PlacedReader.last cfg) v c) (seeking : Option ℕ) :
    ¬ (PlacedReader.attached ⟨c, seeking⟩ : PlacedReader w ω).Overflows cfg.cap v := by
  have hpos := cfg.cap.pos
  have hle : PlacedReader.last cfg + 1 ≤ u64Max := by
    unfold PlacedReader.last
    split_ifs
    · omega
    · exact (Nat.sub_add_cancel (by decide)).le
  have hwithin := h.within
  have hplace := h.place
  unfold PlacedReader.Overflows
  dsimp only
  split
  · rintro ⟨-, hlt⟩
    omega
  · next hpc =>
    rw [hpc] at hplace
    have hlast : PlacedReader.last cfg = u64Max - cfg.cap.val := if_pos hplace
    omega
  · rintro ⟨-, hlt⟩
    omega
  · exact not_false

end PlacedInv

namespace PlacedReader

variable {cfg : PlacedConfig} {v v' : View w ω} {x x' : PlacedReader w ω}

/-- A power of two that is a `u64` is not the largest one. -/
theorem val_lt_of_le {cap : Capacity} (hcap : cap.val ≤ u64Max) : cap.val < u64Max := by
  obtain ⟨k, hk⟩ := cap.isPowerOfTwo
  have hlt : k < 64 := by
    rw [← Nat.pow_lt_pow_iff_right Nat.one_lt_two, ← hk]
    exact Nat.lt_of_le_sub_one (by decide) hcap
  have hle : cap.val ≤ 2 ^ 63 := by
    rw [hk]
    exact Nat.pow_le_pow_right (by decide) (Nat.le_of_lt_succ hlt)
  exact hle.trans_lt (by decide)

theorem last_pos (hcap : cfg.cap.val ≤ u64Max) : 1 ≤ last cfg ∧ last cfg < u64Max := by
  have hpos := cfg.cap.pos
  have hlt := val_lt_of_le hcap
  unfold last
  split_ifs
  · omega
  · decide

theorem resolveStart_le_last (hcap : cfg.cap.val ≤ u64Max) (hws : v.writeSeq < last cfg)
    {start : StartPosition} (hstart : StartWithin (last cfg) start) :
    (resolveStart cfg.cap v.writeSeq start).1 ≤ last cfg := by
  obtain ⟨hpos, -⟩ := last_pos hcap
  have hold : oldestRetained v.writeSeq cfg.cap.val ≤ last cfg :=
    PlacedInv.oldestRetained_le_last hpos hws
  cases start with
  | latest => exact max_le hws.le hpos
  | head => exact hws
  | oldest => exact hold
  | sequence seq =>
    simp only [resolveStart]
    split_ifs
    · exact hold
    · exact max_le hstart hpos
  | checkpoint saved =>
    simp only [resolveStart]
    split_ifs
    · exact hold
    · exact hstart

/-- What holds of a consumer placed up to the last position. -/
def Inv (cfg : PlacedConfig) (v : View w ω) : PlacedReader w ω → Prop
  | opening start => StartWithin (last cfg) start
  | attached x => PlacedInv cfg (last cfg) v x.reader ∧ ∀ target, x.seeking = some target →
      target ≤ last cfg

theorem Inv.evolves (h : x.Inv cfg v) (he : v.Evolves v') : x.Inv cfg v' := by
  cases x with
  | opening => exact h
  | attached x => exact ⟨h.1.evolves he, h.2⟩

theorem Inv.safe [Inhabited ω] (hcap : cfg.cap.val ≤ u64Max) (h : x.Inv cfg v) :
    x.Safe cfg.cap v := by
  cases x with
  | opening start =>
    refine ⟨?_, trivial⟩
    obtain ⟨-, hmax⟩ := last_pos hcap
    cases start with
    | checkpoint saved => exact Nat.not_lt.mpr (le_trans h hmax.le)
    | latest | head | oldest | sequence => exact not_false
  | attached x => exact ⟨h.1.not_overflows hcap x.seeking, h.1.delivered⟩

theorem Inv.step [Inhabited ω] (hcap : cfg.cap.val ≤ u64Max) (hv : v.Truthful)
    (hbelow : v.Below (last cfg)) (h : x.Inv cfg v) {a : PlacedLabel w}
    (ha : Within (last cfg) a) (hstep : x.step cfg v a = some x') : x'.Inv cfg v := by
  obtain ⟨hpos, hmax⟩ := last_pos hcap
  have hws := PlacedInv.writeSeq_lt hv hpos hbelow
  unfold PlacedReader.step at hstep
  split at hstep
  · next start =>
    split_ifs at hstep
    cases hstep
    exact ⟨.attach (one_le_resolveStart _ _ _) (resolveStart_le_last hcap hws h), by rintro _ ⟨⟩⟩
  · next y b =>
    obtain ⟨⟨y', stored⟩, hy, he⟩ := Option.map_eq_some_iff.mp hstep
    cases he
    obtain ⟨hinv, htarget⟩ := h
    unfold SeekingConsumer.step at hy
    split at hy
    · next target hseeking =>
      split at hy <;> cases hy
      refine ⟨hinv, ?_⟩
      rintro _ ⟨⟩
      exact ha target rfl
    · obtain ⟨⟨reader, st⟩, hr, he⟩ := Option.map_eq_some_iff.mp hy
      cases he
      exact ⟨hinv.step hv hpos hmax hbelow hr, by rintro _ ⟨⟩⟩
    · next target hseeking =>
      cases hy
      exact ⟨hinv.seekTo hpos hws (htarget target hseeking), by rintro _ ⟨⟩⟩
    · cases hy
  · cases hstep

end PlacedReader

/-! ## Next to writers -/

namespace RingWriter

variable {σ ι : Type} [Inhabited ω] (W : RingWriter w ω σ ι) (cfg : PlacedConfig)

omit [Inhabited ω] in
/-- What was stored stays stored. -/
theorem below_of_step {s s' : σ} {a : ι} {last : ℕ} (h : W.Inv s) (hstep : W.step s a = some s')
    (hbelow : (W.view s').Below last) : (W.view s).Below last :=
  fun k hk => hbelow k ((W.evolves h hstep).stored k hk)

/-- The writers, and the consumer as long as nothing from the last position on is stored. -/
structure PlacedSystemInv (s : PlacedSystem w ω σ) : Prop where
  writer : W.Inv s.writer
  reader : (W.view s.writer).Below (PlacedReader.last cfg) → s.reader.Inv cfg (W.view s.writer)

variable {W cfg}

theorem PlacedSystemInv.step (hcap : cfg.cap.val ≤ u64Max) {s s' : PlacedSystem w ω σ}
    (h : PlacedSystemInv W cfg s) {a : PlacedSystemLabel w ι}
    (ha : ∀ b, a = .reader b → PlacedReader.Within (PlacedReader.last cfg) b)
    (hstep : s.step W cfg a = some s') : PlacedSystemInv W cfg s' := by
  obtain ⟨hinv, hreader⟩ := h
  cases a with
  | writer a =>
    obtain ⟨writer, hw, rfl⟩ := Option.map_eq_some_iff.mp hstep
    exact ⟨W.keeps hinv hw, fun hb =>
      (hreader (W.below_of_step hinv hw hb)).evolves (W.evolves hinv hw)⟩
  | reader a =>
    obtain ⟨reader, hr, rfl⟩ := Option.map_eq_some_iff.mp hstep
    exact ⟨hinv, fun hb => (hreader hb).step hcap (W.truthful hinv) hb (ha a rfl) hr⟩

/-- **Up to the last position a consumer is safe**: placed by its start position and by `seek` at
positions up to the last one, it keeps within that as long as the writers store nothing from there
on. -/
theorem PlacedSystemInv.run (hcap : cfg.cap.val ≤ u64Max) {writer : σ} {t : PlacedSystem w ω σ}
    {start : StartPosition} (hW : W.Inv writer)
    (hstart : PlacedReader.StartWithin (PlacedReader.last cfg) start)
    {as : List (PlacedSystemLabel w ι)}
    (has : ∀ a, .reader a ∈ as → PlacedReader.Within (PlacedReader.last cfg) a)
    (hrun : Transition.run (PlacedSystem.step W cfg) ⟨writer, .opening start⟩ as = some t) :
    PlacedSystemInv W cfg t := by
  have hinit : PlacedSystemInv W cfg ⟨writer, .opening start⟩ := ⟨hW, fun _ => hstart⟩
  refine Transition.run_invariant
    (Q := fun a => ∀ b, a = .reader b → PlacedReader.Within (PlacedReader.last cfg) b)
    (fun ha hs hstep => hs.step hcap ha hstep) ?_ hinit hrun
  rintro _ ha b rfl
  exact has b ha

end RingWriter

/-- A `RingProducer` with the memory it writes. -/
structure SpmcWriter (w : ℕ) (ω : Type) where
  mem : Shared w ω
  producer : RingProducer w ω

/-- A step of the producer, among processes of which some are alive, or anything that somebody does
to the registry. -/
inductive SpmcWriterLabel (w : ℕ) (ω : Type) where
  | producer (alive : ℕ → Bool) (a : ProducerLabel w ω)
  | registry (regs : ℕ → ReaderSlot)

namespace SpmcWriter

/-- What a reader sees, as in `System`. -/
def view (s : SpmcWriter w ω) : View w ω :=
  (⟨s.mem, fun _ => true, s.producer, fun _ => .absent⟩ : System Empty w ω).view

/-- One memory access. -/
def step (cfg : Config) (s : SpmcWriter w ω) : SpmcWriterLabel w ω → Option (SpmcWriter w ω)
  | .producer alive a =>
    (s.producer.step cfg.cap cfg.maxReaders alive s.mem a).map fun (mem, producer) =>
      ⟨mem, producer⟩
  | .registry regs => some { s with mem := { s.mem with regs := regs } }

/-- A freshly created ring. -/
def create [Inhabited ω] (w : ℕ) (cfg : Config) : SpmcWriter w ω :=
  ⟨⟨fun _ => ⟨0, fun _ => default⟩, 0, fun _ => .empty⟩, .create w ω cfg.flowControl⟩

/-- A reader can rely on a `RingProducer`. -/
def writer (w : ℕ) (ω : Type) (cfg : Config) :
    RingWriter w ω (SpmcWriter w ω) (SpmcWriterLabel w ω) where
  step := step cfg
  view := view
  Inv s := Consistent cfg.cap s.mem s.producer
  keeps {s a s'} h hstep := by
    cases a with
    | producer alive a =>
      obtain ⟨⟨mem, producer⟩, hp, rfl⟩ := Option.map_eq_some_iff.mp hstep
      exact h.step (RingProducer.step_effect hp)
    | registry regs =>
      cases hstep
      exact h.setRegs regs
  truthful {s} h :=
    System.view_truthful
      (s := (⟨s.mem, fun _ => true, s.producer, fun _ => .absent⟩ : System Empty w ω)) h
  evolves {s a s'} h hstep := by
    cases a with
    | producer alive a =>
      obtain ⟨⟨mem, producer⟩, hp, rfl⟩ := Option.map_eq_some_iff.mp hstep
      exact System.view_evolves
        (s := (⟨s.mem, fun _ => true, s.producer, fun _ => .absent⟩ : System Empty w ω)) h
        (RingProducer.step_effect hp)
    | registry regs =>
      cases hstep
      exact .refl _

end SpmcWriter

/-- A reader can rely on any number of `MpmcProducer`s. -/
def MpmcSystem.writer (π ρ : Type) (w : ℕ) (ω : Type) [DecidableEq π] [DecidableEq ρ]
    [Inhabited ω] (cap : Capacity) :
    RingWriter w ω (MpmcSystem π ρ w ω) (MpmcSystemLabel π ρ w ω) where
  step := MpmcSystem.step cap
  view s := s.mem.view
  Inv s := s.Inv cap
  keeps h hstep := h.step hstep
  truthful h := h.mem.truthful
  evolves h hstep := (h.evolves hstep).1

/-- **Which positions are safe.** Next to one producer a consumer may be placed at any position up
to `u64::MAX - 1`, next to several at any position up to `u64::MAX - capacity`: as long as nothing
has been stored from there on, every receive returns a message that was pushed in full under the
consumer's cursor, and no addition on the cursor overflows. -/
theorem positions_safe {π ρ : Type} [DecidableEq π] [DecidableEq ρ] [Inhabited ω]
    (start : StartPosition) (sparse registered : Bool) :
    (∀ (cfg : Config) (as : List (PlacedSystemLabel w (SpmcWriterLabel w ω)))
      (t : PlacedSystem w ω (SpmcWriter w ω)), cfg.cap.val ≤ u64Max →
      PlacedReader.StartWithin (u64Max - 1) start →
      (∀ a, .reader a ∈ as → PlacedReader.Within (u64Max - 1) a) →
      Transition.run
        (PlacedSystem.step (SpmcWriter.writer w ω cfg) ⟨cfg.cap, false, sparse, registered⟩)
        ⟨.create w cfg, .opening start⟩ as = some t →
      t.writer.producer.seq ≤ u64Max - 1 → t.reader.Safe cfg.cap t.writer.view) ∧
    (∀ (cap : Capacity) (as : List (PlacedSystemLabel w (MpmcSystemLabel π ρ w ω)))
      (t : PlacedSystem w ω (MpmcSystem π ρ w ω)), cap.val ≤ u64Max →
      PlacedReader.StartWithin (u64Max - cap.val) start →
      (∀ a, .reader a ∈ as → PlacedReader.Within (u64Max - cap.val) a) →
      Transition.run
        (PlacedSystem.step (MpmcSystem.writer π ρ w ω cap) ⟨cap, true, sparse, registered⟩)
        ⟨.create π ρ w, .opening start⟩ as = some t →
      t.writer.mem.claimSeq ≤ u64Max - cap.val → t.reader.Safe cap t.writer.mem.view) := by
  refine ⟨fun cfg as t hcap hstart has hrun hseq => ?_,
    fun cap as t hcap hstart has hrun hseq => ?_⟩
  · have hW : (SpmcWriter.writer w ω cfg).Inv (.create w cfg) :=
      Consistent.create cfg.flowControl _ _
    have hend : RingWriter.PlacedSystemInv (SpmcWriter.writer w ω cfg)
        ⟨cfg.cap, false, sparse, registered⟩ t :=
      .run hcap hW hstart has hrun
    exact (hend.reader fun k hk => hk.2.trans_le hseq).safe hcap
  · have hW : (MpmcSystem.writer π ρ w ω cap).Inv (.create π ρ w) := MpmcSystem.Inv.create π ρ w
    have hend : RingWriter.PlacedSystemInv (MpmcSystem.writer π ρ w ω cap)
        ⟨cap, true, sparse, registered⟩ t :=
      .run hcap hW hstart has hrun
    exact (hend.reader fun k hk => (hend.writer.mem.stored k hk).2.trans_le hseq).safe hcap

open Ringfire.System (oneSlot)

/-- `push` of a message of two words, word by word. -/
private def pushesPair (words : List (Fin 2)) :
    List (PlacedSystemLabel 2 (SpmcWriterLabel 2 ℕ)) :=
  (ProducerLabel.call (.push fun i => 7 + i.val) :: .tick :: .tick :: words.map .word).map
    fun a => .writer (.producer (fun _ => true) a)

/-- `recv_status` up to the second load of the slot word. -/
private def copiesPair {ι : Type} : List (PlacedSystemLabel 2 ι) :=
  [ConsumerLabel.call .recvStatus, .tick, .word firstOfTwo, .word secondOfTwo].map fun a =>
    .reader (.reader (.reader a))

/-- A consumer placed at message `1` reads it after it was pushed, next to one producer, and finds
nothing on a fresh ring of several. -/
theorem positions_safe_one :
    (∃ (t : PlacedSystem 2 ℕ (SpmcWriter 2 ℕ)) (x : SeekingConsumer 2 ℕ) (d : Payload 2 ℕ),
      Transition.run (PlacedSystem.step (SpmcWriter.writer 2 ℕ oneSlot)
        ⟨oneSlot.cap, false, false, false⟩) ⟨.create 2 oneSlot, .opening (.sequence 1)⟩
        (.reader .attach :: pushesPair [0, 1] ++ [.writer (.producer (fun _ => true) .tick)] ++
          copiesPair ++ [.reader (.reader (.reader .tick))]) = some t ∧
      t.reader = .attached x ∧ x.reader.delivered = [(1, d)] ∧
      t.reader.Safe oneSlot.cap t.writer.view) ∧
    ∃ t : PlacedSystem 2 ℕ (MpmcSystem Empty Empty 2 ℕ),
      Transition.run (PlacedSystem.step (MpmcSystem.writer Empty Empty 2 ℕ oneSlot.cap)
        ⟨oneSlot.cap, true, false, false⟩) ⟨.create Empty Empty 2, .opening (.sequence 1)⟩
        (.reader .attach :: copiesPair.take 2) = some t ∧
      t.reader.Safe oneSlot.cap t.writer.mem.view := by
  have hcap : oneSlot.cap.val ≤ u64Max := by decide
  have hstart : PlacedReader.StartWithin (u64Max - 1) (.sequence 1) :=
    show 1 ≤ u64Max - 1 by decide
  obtain ⟨hsingle, hmulti⟩ :=
    positions_safe (w := 2) (ω := ℕ) (π := Empty) (ρ := Empty) (.sequence 1) false false
  constructor
  · obtain ⟨t, x, d, ht, hx, hd, hseq⟩ :
        ∃ (t : PlacedSystem 2 ℕ (SpmcWriter 2 ℕ)) (x : SeekingConsumer 2 ℕ) (d : Payload 2 ℕ),
          Transition.run (PlacedSystem.step (SpmcWriter.writer 2 ℕ oneSlot)
            ⟨oneSlot.cap, false, false, false⟩) ⟨.create 2 oneSlot, .opening (.sequence 1)⟩
            (.reader .attach :: pushesPair [0, 1] ++ [.writer (.producer (fun _ => true) .tick)] ++
              copiesPair ++ [.reader (.reader (.reader .tick))]) = some t ∧
          t.reader = .attached x ∧ x.reader.delivered = [(1, d)] ∧ t.writer.producer.seq = 2 :=
      ⟨_, _, _, rfl, rfl, rfl, rfl⟩
    refine ⟨t, x, d, ht, hx, hd, hsingle oneSlot _ t hcap hstart ?_ ht ?_⟩
    · rintro a ha target rfl
      simp [pushesPair, copiesPair] at ha
    · rw [hseq]
      decide
  · obtain ⟨t, ht, hseq⟩ : ∃ t : PlacedSystem 2 ℕ (MpmcSystem Empty Empty 2 ℕ),
        Transition.run (PlacedSystem.step (MpmcSystem.writer Empty Empty 2 ℕ oneSlot.cap)
          ⟨oneSlot.cap, true, false, false⟩) ⟨.create Empty Empty 2, .opening (.sequence 1)⟩
          (.reader .attach :: copiesPair.take 2) = some t ∧ t.writer.mem.claimSeq = 1 :=
      ⟨_, rfl, rfl⟩
    refine ⟨t, ht, hmulti oneSlot.cap _ t hcap hstart ?_ ht ?_⟩
    · rintro a ha target rfl
      simp [copiesPair] at ha
    · rw [hseq]
      decide

/-- **A consumer at `u64::MAX`.** The slot is marked and one of the two words of the first message
is stored; the consumer takes the mark for its sequence and is about to return what it copied, a
payload that nobody pushed. A checkpoint at `u64::MAX` cannot be resumed, and with several producers
the first look for a message from a cursor at `u64::MAX` overflows. -/
theorem position_torn :
    (∃ (t : PlacedSystem 2 ℕ (SpmcWriter 2 ℕ)) (x : SeekingConsumer 2 ℕ) (rd : ReadPc 2 ℕ)
        (d : Payload 2 ℕ),
      Transition.run (PlacedSystem.step (SpmcWriter.writer 2 ℕ oneSlot)
        ⟨oneSlot.cap, false, false, false⟩) ⟨.create 2 oneSlot, .opening (.sequence u64Max)⟩
        (.reader .attach :: pushesPair [0] ++ copiesPair) = some t ∧
      t.reader = .attached x ∧ x.reader.cursor = u64Max ∧ x.reader.pc = .reading .status 0 rd ∧
      rd.step (t.writer.view.slots (slotIndex oneSlot.cap u64Max)) u64Max none =
        some (.done (.item d)) ∧
      d ∉ t.writer.producer.pushed ∧ t.reader.Overflows oneSlot.cap t.writer.view) ∧
    (∀ (cap : Capacity) (v : View 2 ℕ),
      (PlacedReader.opening (.checkpoint u64Max) : PlacedReader 2 ℕ).Overflows cap v) ∧
    ∃ t : PlacedSystem 2 ℕ (MpmcSystem Empty Empty 2 ℕ),
      Transition.run (PlacedSystem.step (MpmcSystem.writer Empty Empty 2 ℕ oneSlot.cap)
        ⟨oneSlot.cap, true, false, false⟩) ⟨.create Empty Empty 2, .opening (.sequence u64Max)⟩
        (.reader .attach :: copiesPair.take 2) = some t ∧
      t.reader.Overflows oneSlot.cap t.writer.mem.view := by
  refine ⟨?_, fun cap v => Nat.lt_succ_self u64Max, ?_⟩
  · obtain ⟨t, x, rd, d, ht, hx, hcursor, hpc, hitem, hpushed, hd⟩ :
        ∃ (t : PlacedSystem 2 ℕ (SpmcWriter 2 ℕ)) (x : SeekingConsumer 2 ℕ) (rd : ReadPc 2 ℕ)
            (d : Payload 2 ℕ),
          Transition.run (PlacedSystem.step (SpmcWriter.writer 2 ℕ oneSlot)
            ⟨oneSlot.cap, false, false, false⟩) ⟨.create 2 oneSlot, .opening (.sequence u64Max)⟩
            (.reader .attach :: pushesPair [0] ++ copiesPair) = some t ∧
          t.reader = .attached x ∧ x.reader.cursor = u64Max ∧ x.reader.pc = .reading .status 0 rd ∧
          rd.step (t.writer.view.slots (slotIndex oneSlot.cap u64Max)) u64Max none =
            some (.done (.item d)) ∧
          t.writer.producer.pushed = [fun i => 7 + i.val] ∧ d 1 = 0 :=
      ⟨_, _, _, _, rfl, rfl, rfl, rfl, rfl, rfl, rfl⟩
    refine ⟨t, x, rd, d, ht, hx, hcursor, hpc, hitem, fun hmem => ?_, ?_⟩
    · rw [hpushed, List.mem_singleton] at hmem
      cases hd.symm.trans (congrFun hmem 1)
    · rw [hx]
      unfold PlacedReader.Overflows
      simp only [hpc, hcursor]
      exact ⟨⟨d, hitem⟩, Nat.lt_succ_self u64Max⟩
  · obtain ⟨t, x, ht, hx, hcursor, hpc⟩ :
        ∃ (t : PlacedSystem 2 ℕ (MpmcSystem Empty Empty 2 ℕ)) (x : SeekingConsumer 2 ℕ),
          Transition.run (PlacedSystem.step (MpmcSystem.writer Empty Empty 2 ℕ oneSlot.cap)
            ⟨oneSlot.cap, true, false, false⟩)
            ⟨.create Empty Empty 2, .opening (.sequence u64Max)⟩
            (.reader .attach :: copiesPair.take 2) = some t ∧
          t.reader = .attached x ∧ x.reader.cursor = u64Max ∧ x.reader.pc = .staleLoad .status 0 :=
      ⟨_, _, rfl, rfl, rfl, rfl⟩
    refine ⟨t, ht, ?_⟩
    rw [hx]
    unfold PlacedReader.Overflows
    simp only [hpc, hcursor]
    exact Nat.lt_succ_self u64Max

end Ringfire
