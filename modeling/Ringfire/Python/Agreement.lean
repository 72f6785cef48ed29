import Ringfire.Foundation.Simulation
import Ringfire.Python.Reader

/-!
# The Rust and the Python consumer agree

On a ring with several producers both consumers take the same decisions: when a slot is stale they
look at `write_seq`, and skip once the writers are a full ring ahead. Given the same schedule they
go through the same cursors, return the same messages at the same moments and count the same
sequences as lapped. The one place where the code differs is out of reach: after a stale slot the
Rust consumer tries again when there is nothing to skip, the Python consumer gives up, and there
is always something to skip, because `write_seq` never goes back.

## Main definitions

* `Python.shadow`: the Python consumer is scheduled together with the Rust consumer
* `Python.Matched`: the two stand at the same place

## Main results

* `Python.Matched.step`: the two stay together
* `Python.recv_agrees`: over every run of the ring
-/

namespace Ringfire

open Transition

variable {w : ℕ} {ω : Type}

/-- `write_seq` of a ring with several producers never goes back. -/
theorem MpmcPc.Effect.writeSeq_le {cap : Capacity} {m m' : MpmcShared w ω} {pc pc' : MpmcPc w ω}
    (he : Effect cap m pc m' pc') : m.writeSeq ≤ m'.writeSeq := by
  cases he with
  | publish seq => exact Nat.le_max_left _ _
  | claim | drop | wait | see | miss | own | word | commit => exact le_refl _

namespace Python

/-- The same call in progress. -/
inductive CallMatch : Ringfire.Receive → Receive → Prop where
  | status : CallMatch .status .status
  | batch (room got : ℕ) : CallMatch (.batch (room + 1) got) (.batch room)

/-- The same place, when `write_seq` has reached `reached`. -/
inductive PcMatch (cap : Capacity) (reached cursor : ℕ) :
    Ringfire.ConsumerPc w ω → ConsumerPc w ω → Prop where
  | idle : PcMatch cap reached cursor .idle .idle
  | reading {call : Ringfire.Receive} {call' : Receive} (same : CallMatch call call')
      (skipped : ℕ) (rd : ReadPc w ω) :
      PcMatch cap reached cursor (.reading call skipped rd) (.reading call' skipped rd)
  | stale {call : Ringfire.Receive} {call' : Receive} (same : CallMatch call call')
      (skipped : ℕ) :
      PcMatch cap reached cursor (.staleLoad call skipped) (.staleLoad call' skipped)
  | skip {call : Ringfire.Receive} {call' : Receive} (same : CallMatch call call')
      (skipped seen : ℕ) :
      PcMatch cap reached cursor (.skipLoad .overwritten call skipped seen)
        (.skipLoad call' skipped seen)
  | skipStale {call : Ringfire.Receive} {call' : Receive} (same : CallMatch call call')
      (skipped : ℕ) (ahead : cursor + cap.val ≤ reached) :
      PcMatch cap reached cursor (.skipLoad .stale call skipped 0) (.skipLoad call' skipped 0)

/-- The two consumers stand at the same place and have passed the same sequences. -/
structure Matched (cap : Capacity) (reached : ℕ) (c : Ringfire.RingConsumer w ω)
    (p : RingConsumer w ω) : Prop where
  mode : c.mode = (true, false, false)
  account : c.toAccount = p.toAccount
  pc : PcMatch cap reached c.cursor c.pc p.pc

/-- The Python consumer does what the Rust consumer does. -/
def translate : Ringfire.ConsumerLabel w → ConsumerLabel w
  | .call (.recvBatch room) => .call (.recvBatch room)
  | .call _ => .call .recvStatus
  | .word i => .word i
  | .tick => .tick

/-- The label is no jump. -/
def IsReceive (a : Ringfire.ConsumerLabel w) : Prop :=
  a ≠ .call .jumpToLatest ∧ a ≠ .call .jumpToOldest

variable {cap : Capacity} {reached : ℕ} {c c' : Ringfire.RingConsumer w ω} {p : RingConsumer w ω}

theorem PcMatch.mono {reached' cursor : ℕ} {pc : Ringfire.ConsumerPc w ω} {pc' : ConsumerPc w ω}
    (h : PcMatch cap reached cursor pc pc') (hle : reached ≤ reached') :
    PcMatch cap reached' cursor pc pc' := by
  cases h with
  | idle => exact .idle
  | reading same => exact .reading same _ _
  | stale same => exact .stale same _
  | skip same => exact .skip same _ _
  | skipStale same skipped ahead => exact .skipStale same _ (ahead.trans hle)

theorem Matched.mono {reached' : ℕ} (h : Matched cap reached c p) (hle : reached ≤ reached') :
    Matched cap reached' c p :=
  ⟨h.mode, h.account, h.pc.mono hle⟩

/-- The cursors are the same. -/
theorem Matched.cursor_eq (h : Matched cap reached c p) : p.cursor = c.cursor :=
  (congrArg Account.cursor h.account).symm

theorem Matched.registered_eq (h : Matched cap reached c p) : c.registered = false :=
  congrArg (fun m => m.2.2) h.mode

theorem Matched.multiProducer_eq (h : Matched cap reached c p) : c.multiProducer = true :=
  congrArg Prod.fst h.mode

/-! ## One step of both -/

/-- Where an unregistered Rust consumer goes on. -/
theorem settle_pc (h : c.registered = false) (resume : Option (Ringfire.Receive × ℕ)) :
    (c.settle resume).pc = Ringfire.RingConsumer.resumePc resume := by
  simp [Ringfire.RingConsumer.settle, h]

/-- Both give up. -/
theorem Matched.giveUp (h : Matched cap reached c p) {call : Ringfire.Receive} {call' : Receive}
    (same : CallMatch call call') (skipped : ℕ) :
    Matched cap reached (c.giveUp call) (p.giveUp skipped) := by
  refine ⟨(Ringfire.RingConsumer.giveUp_mode c call).trans h.mode,
    (Ringfire.RingConsumer.giveUp_account c call).trans h.account, ?_⟩
  have hidle : (c.giveUp call).pc = .idle := by
    cases same with
    | status => rfl
    | batch room got =>
      cases got with
      | zero => rfl
      | succ got => exact settle_pc h.registered_eq none
  rw [hidle]
  exact .idle

/-- Both return the message. -/
theorem Matched.deliver (h : Matched cap reached c p) {call : Ringfire.Receive} {call' : Receive}
    (same : CallMatch call call') (skipped : ℕ) (item : Payload w ω) :
    Matched cap reached (c.deliver skipped item call) (p.deliver call' skipped item) := by
  refine ⟨(Ringfire.RingConsumer.deliver_mode c skipped item call).trans h.mode, ?_, ?_⟩
  · rw [Ringfire.RingConsumer.deliver_account, h.account]
    rfl
  · have hreg := h.registered_eq
    cases same with
    | status =>
      have hpc : (c.deliver skipped item .status).pc = .idle := by
        simp [Ringfire.RingConsumer.deliver, Ringfire.RingConsumer.settle, hreg,
          Ringfire.RingConsumer.resumePc]
      rw [hpc]
      exact .idle
    | batch room got =>
      cases room with
      | zero =>
        have hpc : (c.deliver skipped item (.batch (0 + 1) got)).pc = .idle := by
          simp [Ringfire.RingConsumer.deliver, Ringfire.RingConsumer.settle, hreg,
            Ringfire.RingConsumer.resumePc]
        rw [hpc]
        exact .idle
      | succ room =>
        have hpc : (c.deliver skipped item (.batch (room + 1 + 1) got)).pc =
            .reading (.batch (room + 1) (got + 1)) 0 .load := by
          simp [Ringfire.RingConsumer.deliver]
        rw [hpc]
        exact .reading (.batch room (got + 1)) 0 .load

/-- Both skip what was overwritten. -/
theorem Matched.skip {writeSeq : ℕ} (h : Matched cap writeSeq c p) {site : SkipSite}
    {call : Ringfire.Receive} {call' : Receive} (same : CallMatch call call') (skipped seen : ℕ)
    (hpos : 1 ≤ c.cursor)
    (hsite : site = .overwritten ∨ site = .stale ∧ c.cursor + cap.val ≤ writeSeq) :
    Matched cap writeSeq (c.skipOverwritten cap writeSeq site call skipped seen)
      (p.skipOverwritten cap writeSeq call' skipped seen) := by
  have hcur := h.cursor_eq
  have hresume (s : ℕ) : Ringfire.RingConsumer.skipResume site call skipped s =
      some (call, skipped + s) := by
    rcases hsite with rfl | ⟨rfl, -⟩ <;> rfl
  by_cases hlt : c.cursor < oldestRetained (max writeSeq seen) cap.val
  · refine ⟨(Ringfire.RingConsumer.skipOverwritten_mode cap writeSeq c site call skipped
      seen).trans h.mode, ?_, ?_⟩
    · simp only [Ringfire.RingConsumer.skipOverwritten, RingConsumer.skipOverwritten, hcur, hlt,
        if_true, Ringfire.RingConsumer.skipTo, Ringfire.RingConsumer.settle, h.account]
    · simp only [Ringfire.RingConsumer.skipOverwritten, RingConsumer.skipOverwritten, hcur, hlt,
        if_true, Ringfire.RingConsumer.skipTo, Ringfire.RingConsumer.settle, h.registered_eq,
        hresume, Bool.false_eq_true, if_false]
      exact .reading same _ .load
  · -- nothing to skip, and the slot was not stale
    rcases hsite with rfl | ⟨-, hahead⟩
    · simp only [Ringfire.RingConsumer.skipOverwritten, RingConsumer.skipOverwritten, hcur, hlt,
        if_false]
      exact h.giveUp same skipped
    · refine absurd ((lt_oldestRetained hpos).mpr ?_) hlt
      exact hahead.trans (Nat.le_max_left _ _)

/-- Both go on with the slot they have read. -/
theorem Matched.afterRead (h : Matched cap reached c p) {call : Ringfire.Receive}
    {call' : Receive} (same : CallMatch call call') (skipped : ℕ) {r : SlotRead (Payload w ω)}
    (hafter : c.afterRead call skipped r = some c') :
    Matched cap reached c' (p.afterRead call' skipped r) := by
  cases r with
  | item item =>
    simp only [Ringfire.RingConsumer.afterRead] at hafter
    split_ifs at hafter
    cases hafter
    exact h.deliver same skipped item
  | overwritten seen =>
    cases hafter
    exact ⟨h.mode, h.account, .skip same skipped seen⟩
  | pending =>
    have hmulti := h.multiProducer_eq
    simp only [Ringfire.RingConsumer.afterRead] at hafter
    rw [if_pos hmulti] at hafter
    cases hafter
    exact ⟨h.mode, h.account, .stale same skipped⟩

/-- Both start the same call. -/
theorem Matched.start (h : Matched cap reached c p) {call : Ringfire.ConsumerCall}
    (hcall : IsReceive (w := w) (.call call)) :
    ∃ call', translate (w := w) (.call call) = .call call' ∧
      Matched cap reached (c.start call) (p.start call') := by
  cases call with
  | recvStatus => exact ⟨.recvStatus, rfl, h.mode, h.account, .reading .status 0 .load⟩
  | recvBatch room =>
    refine ⟨.recvBatch room, rfl, ?_⟩
    cases room with
    | zero => exact h
    | succ room => exact ⟨h.mode, h.account, .reading (.batch room 0) 0 .load⟩
  | jumpToLatest => exact absurd rfl hcall.1
  | jumpToOldest => exact absurd rfl hcall.2

/-- **The two stay together**: when the Rust consumer can take a step, so can the Python consumer,
and they stand at the same place afterwards. -/
theorem Matched.step [Inhabited ω] {slots : ℕ → Slot w ω} {writeSeq : ℕ}
    {a : Ringfire.ConsumerLabel w} {stored : Option ℕ} (h : Matched cap writeSeq c p)
    (hpos : 1 ≤ c.cursor) (ha : IsReceive a)
    (hstep : c.step cap slots writeSeq a = some (c', stored)) :
    ∃ p', p.step cap slots writeSeq (translate a) = some p' ∧ Matched cap writeSeq c' p' := by
  have hcur := h.cursor_eq
  have hmatch := h.pc
  generalize hpc : c.pc = pc, hpc' : p.pc = pc' at hmatch
  cases hmatch with
  | idle =>
    cases a with
    | call call =>
      simp only [Ringfire.RingConsumer.step, hpc] at hstep
      cases hstep
      obtain ⟨call', hcall, hstart⟩ := h.start ha
      exact ⟨_, by rw [hcall]; simp only [RingConsumer.step, hpc'], hstart⟩
    | word | tick => simp [Ringfire.RingConsumer.step, hpc] at hstep
  | reading same skipped rd =>
    cases a with
    | call => simp [Ringfire.RingConsumer.step, hpc] at hstep
    | word i =>
      simp only [Ringfire.RingConsumer.step, hpc] at hstep
      simp only [translate, RingConsumer.step, hpc', hcur]
      cases hr : rd.step (slots (slotIndex cap c.cursor)) c.cursor (some i) with
      | none =>
        rw [hr] at hstep
        cases hstep
      | some rd' =>
        rw [hr] at hstep
        cases hstep
        exact ⟨{ p with pc := .reading _ skipped rd' }, rfl, h.mode, h.account,
          .reading same skipped rd'⟩
    | tick =>
      simp only [Ringfire.RingConsumer.step, hpc] at hstep
      simp only [translate, RingConsumer.step, hpc', hcur]
      cases hr : rd.step (slots (slotIndex cap c.cursor)) c.cursor none with
      | none =>
        rw [hr] at hstep
        cases hstep
      | some rd' =>
        rw [hr] at hstep
        cases rd' with
        | load | copy =>
          cases hstep
          exact ⟨_, rfl, h.mode, h.account, .reading same skipped _⟩
        | done r =>
          obtain ⟨c'', hafter, he⟩ := Option.map_eq_some_iff.mp hstep
          cases he
          exact ⟨_, rfl, h.afterRead same skipped hafter⟩
  | stale same skipped =>
    cases a with
    | call | word => simp [Ringfire.RingConsumer.step, hpc] at hstep
    | tick =>
      simp only [Ringfire.RingConsumer.step, hpc] at hstep
      simp only [translate, RingConsumer.step, hpc', hcur]
      split_ifs at hstep with hfits hahead <;> cases hstep
      · rw [if_pos hahead]
        exact ⟨{ p with pc := .skipLoad _ skipped 0 }, rfl, h.mode, h.account,
          .skipStale same skipped hahead⟩
      · rw [if_neg hahead]
        exact ⟨_, rfl, h.giveUp same skipped⟩
  | skip same skipped seen =>
    cases a with
    | call | word => simp [Ringfire.RingConsumer.step, hpc] at hstep
    | tick =>
      simp only [Ringfire.RingConsumer.step, hpc] at hstep
      cases hstep
      simp only [translate, RingConsumer.step, hpc']
      exact ⟨_, rfl, h.skip same skipped seen hpos (.inl rfl)⟩
  | skipStale same skipped ahead =>
    cases a with
    | call | word => simp [Ringfire.RingConsumer.step, hpc] at hstep
    | tick =>
      simp only [Ringfire.RingConsumer.step, hpc] at hstep
      cases hstep
      simp only [translate, RingConsumer.step, hpc']
      exact ⟨_, rfl, h.skip same skipped 0 hpos (.inr ⟨rfl, ahead⟩)⟩

/-! ## Whole runs -/

section Runs

variable {π ρ κ : Type} [DecidableEq π] [DecidableEq ρ] [DecidableEq κ] [Inhabited ω]

/-- Whenever the Rust reader `r` takes a step, the Python reader `k` takes the same step. -/
def shadow (r : ρ) (k : κ) :
    MpmcSystemLabel π ρ w ω → List (ObservedLabel κ (MpmcSystemLabel π ρ w ω) (ReaderLabel w))
  | .reader r' a =>
    if r' = r then [.base (.reader r' a), .observer k (.step (translate a))]
    else [.base (.reader r' a)]
  | l => [.base l]

/-- The two readers stand at the same place of the ring `b`. -/
structure Shadowed (cap : Capacity) (r : ρ) (k : κ) (b : MpmcSystem π ρ w ω)
    (s : Beside κ (MpmcSystem π ρ w ω) w ω) : Prop where
  base : s.base = b
  readers : ∃ c p, b.readers r = .attached c ∧ s.observer k = some p ∧ 1 ≤ c.cursor ∧
    Matched cap b.mem.writeSeq c p

/-- A step of the ring that leaves reader `r` alone. -/
theorem Shadowed.other {r : ρ} {k : κ} {b b' : MpmcSystem π ρ w ω}
    {s : Beside κ (MpmcSystem π ρ w ω) w ω} (h : Shadowed cap r k b s)
    {l : MpmcSystemLabel π ρ w ω} (hstep : MpmcSystem.step cap b l = some b')
    (hsame : b'.readers r = b.readers r) (hle : b.mem.writeSeq ≤ b'.mem.writeSeq) :
    ∃ s', run (Observed.step (MpmcSystem.step cap) (look cap fun b => b.mem.view)) s
      [.base l] = some s' ∧ Shadowed cap r k b' s' := by
  obtain ⟨c, p, hc, hp, hpos, hmatch⟩ := h.readers
  refine ⟨{ s with base := b' }, ?_, rfl, c, p, hsame.trans hc, hp, hpos, hmatch.mono hle⟩
  rw [run_cons_eq_some]
  exact ⟨_, by rw [Observed.step, h.base, hstep]; rfl, rfl⟩

/-- **A step of the ring and its shadow.** -/
theorem Shadowed.step {r : ρ} {k : κ} {b b' : MpmcSystem π ρ w ω}
    {s : Beside κ (MpmcSystem π ρ w ω) w ω} {l : MpmcSystemLabel π ρ w ω}
    (hl : ∀ a, l = .reader r a → IsReceive a) (h : Shadowed cap r k b s)
    (hstep : MpmcSystem.step cap b l = some b') :
    ∃ s', run (Observed.step (MpmcSystem.step cap) (look cap fun b => b.mem.view)) s
      (shadow r k l) = some s' ∧ Shadowed cap r k b' s' := by
  obtain ⟨c, p, hc, hp, hpos, hmatch⟩ := h.readers
  have hstep' := hstep
  cases l with
  | producer q a =>
    simp only [MpmcSystem.step] at hstep'
    split at hstep' <;> cases hstep'
    next mem pc hq => exact h.other hstep rfl (MpmcPc.step_effect hq).writeSeq_le
  | attach r' start =>
    simp only [MpmcSystem.step] at hstep'
    split at hstep' <;> cases hstep'
    next habsent =>
      have hne : r ≠ r' := by
        rintro rfl
        rw [hc] at habsent
        cases habsent
      exact h.other hstep (Function.update_of_ne hne _ _) (le_refl _)
  | reader r' a =>
    simp only [MpmcSystem.step] at hstep'
    split at hstep' <;> cases hstep'
    next x hx =>
      rcases eq_or_ne r' r with rfl | hne
      · -- the Rust reader steps, and the Python reader after it
        rw [hc] at hx
        obtain ⟨⟨c', stored⟩, hc', rfl⟩ := Option.map_eq_some_iff.mp hx
        obtain ⟨p', hp', hmatch'⟩ := hmatch.step hpos (hl a rfl) hc'
        have hpos' : 1 ≤ c'.cursor := by
          rw [← hmatch'.cursor_eq]
          exact RingConsumer.one_le_of_step (by rw [hmatch.cursor_eq]; exact hpos) hp'
        refine ⟨⟨_, Function.update s.observer k (some p')⟩, ?_, rfl, c', p',
          Function.update_self _ _ _, Function.update_self _ _ _, hpos', hmatch'⟩
        rw [shadow, if_pos rfl, run_cons_eq_some]
        refine ⟨_, by rw [Observed.step, h.base, hstep]; rfl, ?_⟩
        rw [run_cons_eq_some]
        refine ⟨_, ?_, rfl⟩
        rw [Observed.step]
        simp only [hp, look, MpmcShared.view, hp', Option.map_some]
      · rw [shadow, if_neg hne]
        exact h.other hstep (Function.update_of_ne hne.symm _ _) (le_refl _)

/-- **The Rust and the Python consumer agree.** A Rust and a Python consumer of a ring with several
producers attach at the same position, and the Rust consumer only receives. Whatever the run of
the ring, the Python consumer can follow the Rust consumer step by step, and then both have
returned the same messages, lost the same sequences and stand at the same cursor. -/
theorem recv_agrees {start : ℕ × ℕ} (hstart : 1 ≤ start.1)
    {s : Beside κ (MpmcSystem π ρ w ω) w ω} {r : ρ} {k : κ}
    (hr : s.base.readers r = .attached (.attach true false false start.1 start.2))
    (hk : s.observer k = some (.attach start)) {as : List (MpmcSystemLabel π ρ w ω)}
    {b' : MpmcSystem π ρ w ω} (has : ∀ a, .reader r a ∈ as → IsReceive a)
    (hrun : run (MpmcSystem.step cap) s.base as = some b') :
    ∃ s' c p, run (Observed.step (MpmcSystem.step cap) (look cap fun b => b.mem.view)) s
        (as.flatMap (shadow r k)) = some s' ∧
      s'.base = b' ∧ b'.readers r = .attached c ∧ s'.observer k = some p ∧
      p.toAccount = c.toAccount ∧ (p.pc = .idle ↔ c.pc = .idle) := by
  have hinit : Shadowed cap r k s.base s :=
    ⟨rfl, _, _, hr, hk, hstart, rfl, rfl, .idle⟩
  obtain ⟨s', hs', hbase, c, p, hc, hp, -, hmatch⟩ :=
    run_flatMap_of_simulates (Q := fun l => ∀ a, l = .reader r a → IsReceive a)
      (fun hl h hstep => h.step hl hstep) (fun l hl a ha => has a (by rw [← ha]; exact hl)) hinit
      hrun
  refine ⟨s', c, p, hs', hbase, hc, hp, hmatch.account.symm, ?_⟩
  have hpc := hmatch.pc
  generalize c.pc = x, p.pc = y at hpc
  cases hpc <;> simp

/-- A message is pushed. -/
def pushOne (x : ℕ) : List (MpmcSystemLabel Unit Unit 1 ℕ) :=
  [.producer () (.push fun _ => x), .producer () (.tick false), .producer () (.tick false),
    .producer () (.word onlyWord), .producer () (.tick false), .producer () (.tick false)]

/-- A slot is read. -/
def readOne : List (MpmcSystemLabel Unit Unit 1 ℕ) :=
  [.reader () .tick, .reader () (.word onlyWord), .reader () .tick]

/-- One message is pushed and received, two more are pushed of which the ring keeps the second, and
the reader receives again. -/
def pushThree : List (MpmcSystemLabel Unit Unit 1 ℕ) :=
  pushOne 7 ++ [.reader () (.call .recvStatus)] ++ readOne ++ pushOne 8 ++ pushOne 9 ++
    [.reader () (.call .recvStatus), .reader () .tick, .reader () .tick] ++ readOne

/-- A Rust reader is lapped with a Python reader at its side: both return the first message and the
third, and count the second. -/
theorem recv_agrees_lapped :
    ∃ (s : Beside Unit (MpmcSystem Unit Unit 1 ℕ) 1 ℕ) (b' : MpmcSystem Unit Unit 1 ℕ)
      (s' : Beside Unit (MpmcSystem Unit Unit 1 ℕ) 1 ℕ) (c : Ringfire.RingConsumer 1 ℕ)
      (p : RingConsumer 1 ℕ), s'.base = b' ∧ b'.readers () = .attached c ∧
        s'.observer () = some p ∧ p.toAccount = c.toAccount ∧
        s.observer () = some (.attach (1, 0)) ∧ c.cursor = 4 ∧ c.lappedTotal = 1 ∧
        c.delivered.map (fun d => (d.1, d.2 onlyWord)) = [(1, 7), (3, 9)] := by
  obtain ⟨s, hr, hk, b', hrun, c, hc, hfacts⟩ : ∃ s : Beside Unit (MpmcSystem Unit Unit 1 ℕ) 1 ℕ,
      s.base.readers () = .attached (.attach true false false 1 0) ∧
      s.observer () = some (.attach (1, 0)) ∧
      ∃ b', run (MpmcSystem.step System.oneSlot.cap) s.base pushThree = some b' ∧
        ∃ c, b'.readers () = .attached c ∧ c.cursor = 4 ∧ c.lappedTotal = 1 ∧
          c.delivered.map (fun d => (d.1, d.2 onlyWord)) = [(1, 7), (3, 9)] :=
    ⟨⟨{ MpmcSystem.create Unit Unit 1 with
        readers := fun _ => .attached (.attach true false false 1 0) },
      fun _ => some (.attach (1, 0))⟩, rfl, rfl, _, rfl, _, rfl, rfl, rfl, rfl⟩
  obtain ⟨s', c', p, -, hbase, hc', hp, hacc, -⟩ :=
    recv_agrees (le_refl 1) hr hk (by simp [pushThree, pushOne, readOne, IsReceive]) hrun
  rw [hc] at hc'
  cases hc'
  exact ⟨s, b', s', c, p, hbase, hc, hp, hacc, hk, hfacts⟩

end Runs

end Python

end Ringfire
