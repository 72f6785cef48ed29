import Ringfire.Foundation.Observers
import Ringfire.Mpmc.System
import Ringfire.Python.Consumer
import Ringfire.Ring.System

/-!
# Python readers of a ring

A Python consumer maps the ring and stores nothing in it, so any number of them stand beside the
writers and the Rust readers as observers. What such a reader may rely on is the contract of
`View`; the kinds of ring that keep it are `Watchable`.

## Main definitions

* `Watchable`: a system whose readers see a truthful view
* `Python.look`: attaching, or one memory access of an attached consumer
* `Python.Beside`: a ring with Python readers beside it

## Main results

* `Python.recv_intact`: what a Python consumer returns is the message of its cursor
* `Python.recv_accounted`: between two moments it returns or counts every sequence it passes
-/

namespace Ringfire

open Transition

variable {w : ℕ} {ω : Type}

/-- A system that shows its readers a truthful view, as long as it satisfies `I`. -/
structure Watchable {σ ι : Type} (I : σ → Prop) (step : σ → ι → Option σ) (view : σ → View w ω) :
    Prop where
  inv : ∀ {s s' : σ} {l : ι}, I s → step s l = some s' → I s'
  truthful : ∀ {s : σ}, I s → (view s).Truthful
  evolves : ∀ {s s' : σ} {l : ι}, I s → step s l = some s' → (view s).Evolves (view s')

/-- A single-producer ring with its Rust readers. -/
theorem System.watchable {ρ : Type} [DecidableEq ρ] [Inhabited ω] (cfg : Config) :
    Watchable (System.Inv cfg) (System.step (ρ := ρ) (w := w) (ω := ω) cfg) System.view where
  inv h hstep := h.step hstep
  truthful h := view_truthful h.ring
  evolves {s s' l} h hstep := by
    cases step_move hstep with
    | producer a mem producer hp next =>
      subst next
      exact view_evolves h.ring (RingProducer.step_effect hp)
    | reader r x regs hm next =>
      subst next
      exact ⟨fun _ h => h, fun _ => le_refl _, fun _ _ h => h, fun _ => .refl _ _ _⟩
    | die pid next =>
      subst next
      exact ⟨fun _ h => h, fun _ => le_refl _, fun _ _ h => h, fun _ => .refl _ _ _⟩

/-- A multi-producer ring with its Rust readers. -/
theorem MpmcSystem.watchable {π ρ : Type} [DecidableEq π] [DecidableEq ρ] [Inhabited ω]
    (cap : Capacity) :
    Watchable (MpmcSystem.Inv cap) (MpmcSystem.step (π := π) (ρ := ρ) (w := w) (ω := ω) cap)
      fun s => s.mem.view where
  inv h hstep := h.step hstep
  truthful h := h.mem.truthful
  evolves h hstep := (h.evolves hstep).1

/-- What readers see evolves over whole runs. -/
theorem Watchable.evolves_reaches {σ ι : Type} {I : σ → Prop} {step : σ → ι → Option σ}
    {view : σ → View w ω} (h : Watchable I step view) {s t : σ} (hI : I s)
    (hreach : Reaches step s t) : I t ∧ (view s).Evolves (view t) := by
  refine hreach.invariant (P := fun u => I u ∧ (view s).Evolves (view u)) ?_ ⟨hI, .refl _⟩
  rintro u l u' ⟨hu, he⟩ hstep
  exact ⟨h.inv hu hstep, he.trans (h.evolves hu hstep)⟩

namespace Python

variable [Inhabited ω] {cap : Capacity} {v v' : View w ω} {c c' : RingConsumer w ω}

/-! ## What a consumer knows -/

/-- What a consumer in the middle of a call knows. -/
def RingConsumer.PcSound (cap : Capacity) (v : View w ω) (c : RingConsumer w ω) : Prop :=
  match c.pc with
  | .reading _ _ rd => c.cursor ≠ slotWriting →
      rd.Sound v.message (v.top (slotIndex cap c.cursor)) (v.slots (slotIndex cap c.cursor)) c.cursor
  | .skipLoad _ _ seen => seen = 0 ∨ v.stored seen
  | _ => True

/-- What holds of a consumer between any two of its steps. -/
structure RingConsumer.Inv (cap : Capacity) (v : View w ω) (c : RingConsumer w ω) : Prop where
  one_le : 1 ≤ c.cursor
  pc : c.PcSound cap v
  delivered : ∀ k d, (k, d) ∈ c.delivered → k ≠ slotWriting → v.message k = some d
  reported : c.Reported

namespace RingConsumer

omit [Inhabited ω] in
theorem Inv.attach {start : ℕ × ℕ} (h : 1 ≤ start.1) :
    (RingConsumer.attach start : RingConsumer w ω).Inv cap v where
  one_le := h
  pc := trivial
  delivered := by
    intro k d hmem
    cases hmem
  reported := ⟨rfl, rfl⟩

omit [Inhabited ω] in
theorem PcSound.evolves (h : c.PcSound cap v) (he : v.Evolves v') : c.PcSound cap v' := by
  unfold PcSound at *
  split at h
  · exact fun hc => (h hc).evolves hc (he.top _) (he.message _) (he.slots _)
  · exact h.imp_right (he.stored _)
  · exact h

omit [Inhabited ω] in
theorem Inv.evolves (h : c.Inv cap v) (he : v.Evolves v') : c.Inv cap v' :=
  ⟨h.one_le, h.pc.evolves he,
    fun k d hmem hk => he.message k d (h.delivered k d hmem hk), h.reported⟩

omit [Inhabited ω] in
/-- Where no slot is being read and nothing was seen there is nothing to know. -/
theorem pcSound_of_idle (h : c.pc = .idle) : c.PcSound cap v := by
  unfold PcSound
  rw [h]
  trivial

omit [Inhabited ω] in
/-- A copy that has not begun is sound. -/
theorem pcSound_of_load {call : Receive} {skipped : ℕ} (h : c.pc = .reading call skipped .load) :
    c.PcSound cap v := by
  unfold PcSound
  rw [h]
  exact fun _ => trivial

/-- A consumer's knowledge survives the accesses of `read_slot`. -/
theorem PcSound.read {call : Receive} {skipped : ℕ} {rd rd' : ReadPc w ω} {x : Option (Fin w)}
    (hv : v.Truthful) (hpos : 1 ≤ c.cursor) (h : c.PcSound cap v)
    (hpc : c.pc = .reading call skipped rd)
    (hr : rd.step (v.slots (slotIndex cap c.cursor)) c.cursor x = some rd')
    (hc : c.cursor ≠ slotWriting) :
    rd'.Sound v.message (v.top (slotIndex cap c.cursor)) (v.slots (slotIndex cap c.cursor))
      c.cursor := by
  unfold PcSound at h
  rw [hpc] at h
  exact (h hc).step (fun heq => hv.slot hpos hc heq) hr

/-- **A consumer's knowledge survives its own steps.** -/
theorem PcSound.step {a : ConsumerLabel w} (hv : v.Truthful) (hpos : 1 ≤ c.cursor)
    (h : c.PcSound cap v) (hstep : c.step cap v.slots v.writeSeq a = some c') :
    c'.PcSound cap v := by
  cases step_moves hstep with
  | call call hpc =>
    cases call with
    | recvStatus => exact pcSound_of_load rfl
    | recvBatch maxCount =>
      cases maxCount with
      | zero => exact h
      | succ => exact pcSound_of_load rfl
    | seek => trivial
  | word call skipped rd rd' i hpc hr | load call skipped rd rd' hpc hr =>
    exact fun hc => PcSound.read (c := c) hv hpos h hpc hr hc
  | done call skipped rd r hpc hr =>
    cases r with
    | item item =>
      cases call with
      | status => exact pcSound_of_idle rfl
      | batch room =>
        cases room with
        | zero => exact pcSound_of_idle rfl
        | succ => exact pcSound_of_load rfl
    | pending => trivial
    | overwritten seen =>
      -- the word of the slot names a stored message, unless it is the mark
      rcases ReadPc.step_overwritten hr with h0 | ⟨rfl, hm⟩
      · exact .inl h0
      · exact hv.word_stored hm
  | stale => exact .inl rfl
  | waits => exact pcSound_of_idle rfl
  | skip call skipped seen =>
    unfold skipOverwritten
    split_ifs
    · exact pcSound_of_load rfl
    · exact pcSound_of_idle rfl
  | seek targetSeq =>
    unfold seekTo
    split_ifs <;> exact pcSound_of_idle rfl

omit [Inhabited ω] in
/-- The sequences a consumer skips were overwritten. -/
theorem Inv.lapped {call : Receive} {skipped seen s : ℕ} (hv : v.Truthful) (h : c.Inv cap v)
    (hpc : c.pc = .skipLoad call skipped seen) (hs : c.cursor ≤ s)
    (hlt : s < oldestRetained (max v.writeSeq seen) cap.val) :
    ∃ k, s + cap.val ≤ k ∧ v.stored k := by
  have hpos := h.one_le
  have hseen := h.pc
  unfold PcSound at hseen
  rw [hpc] at hseen
  have hle := (lt_oldestRetained (hpos.trans hs)).mp hlt
  refine ⟨max v.writeSeq seen, hle, ?_⟩
  rcases max_choice v.writeSeq seen with hmax | hmax
  · rw [hmax] at hle ⊢
    exact hv.writeSeq.resolve_left (by omega)
  · rw [hmax] at hle ⊢
    exact hseen.resolve_left (by omega)

/-- **The accounting step.** A step of a consumer that does not seek returns the right message or
counts as lapped only what was overwritten. -/
theorem Inv.advance {a : ConsumerLabel w} (hv : v.Truthful) (h : c.Inv cap v) (hseek : ¬ c.Seeking)
    (hstep : c.step cap v.slots v.writeSeq a = some c') :
    ∃ D L, c.toAccount.Advance c'.toAccount D L [] ∧
      (∀ k d, (k, d) ∈ D → k ≠ slotWriting → v.message k = some d) ∧
      ∀ s ∈ L, ∃ k, s + cap.val ≤ k ∧ v.stored k := by
  cases step_effect hstep with
  | stay account =>
    rw [account]
    exact ⟨[], [], .refl _, by simp, by simp⟩
  | deliver call skipped rd item pc read account =>
    rw [account]
    refine ⟨_, _, .deliver _ item, ?_, by simp⟩
    intro k d hmem hk
    obtain ⟨rfl, rfl⟩ := Prod.mk.inj (List.mem_singleton.mp hmem)
    exact h.pc.read hv h.one_le pc read hk _ rfl
  | lap call skipped seen pc lt account =>
    rw [account]
    refine ⟨_, _, .lap _ lt.le, by simp, fun s hs => ?_⟩
    rw [List.mem_range'_1] at hs
    exact h.lapped hv pc hs.1 (by omega)
  | seek targetSeq pc => exact absurd ⟨targetSeq, pc⟩ hseek

theorem Inv.step {a : ConsumerLabel w} (hv : v.Truthful) (h : c.Inv cap v)
    (hstep : c.step cap v.slots v.writeSeq a = some c') : c'.Inv cap v := by
  refine ⟨one_le_of_step h.one_le hstep, h.pc.step hv h.one_le hstep, ?_, h.reported.step hstep⟩
  by_cases hseek : c.Seeking
  · -- what was returned stays when the cursor is set
    obtain ⟨targetSeq, hpc⟩ := hseek
    cases step_effect hstep with
    | stay account => exact account ▸ h.delivered
    | deliver _ _ _ _ pc | lap _ _ _ pc =>
      rw [hpc] at pc
      cases pc
    | seek target pc result =>
      subst result
      unfold seekTo
      split_ifs <;> exact h.delivered
  · obtain ⟨D, L, hadv, hD, -⟩ := h.advance hv hseek hstep
    intro k d hmem hk
    rw [hadv.delivered, List.mem_append] at hmem
    exact hmem.elim (fun hm => h.delivered k d hm hk) fun hm => hD k d hm hk

end RingConsumer

/-! ## Readers beside a ring -/

/-- What a reader does: it attaches, with the sequence saved in its offset file if it has one, or
takes a step. -/
inductive ReaderLabel (w : ℕ) where
  | attach (savedSeq : Option ℕ) (mode : StartMode)
  | step (a : ConsumerLabel w)

variable {σ ι κ : Type} [DecidableEq κ]

/-- One memory access of a reader of the ring it sees. -/
def look (cap : Capacity) (view : σ → View w ω) (s : σ) :
    Option (RingConsumer w ω) → ReaderLabel w → Option (Option (RingConsumer w ω))
  | none, .attach savedSeq mode =>
    (startPosition cap (view s).writeSeq savedSeq mode).map fun start => some (.attach start)
  | some c, .step a => (c.step cap (view s).slots (view s).writeSeq a).map some
  | _, _ => none

/-- A ring with Python readers beside it. -/
abbrev Beside (κ σ : Type) (w : ℕ) (ω : Type) : Type :=
  Observed κ σ (Option (RingConsumer w ω))

/-- A ring nobody has attached to from Python. -/
def beside (κ : Type) (init : σ) : Beside κ σ w ω := ⟨init, fun _ => none⟩

variable {I : σ → Prop} {move : σ → ι → Option σ} {view : σ → View w ω} {init : σ}
  {s s' : Beside κ σ w ω} {k : κ}

omit [DecidableEq κ] in
/-- The invariant of one consumer, as the observer rule asks for it. -/
theorem kept_inv (h : Watchable I move view) :
    Observed.Kept I move (look cap view) (fun _ => True)
      fun s x => ∀ c : RingConsumer w ω, x = some c → c.Inv cap (view s) where
  base hI hJ hstep c hc := (hJ c hc).evolves (h.evolves hI hstep)
  look := by
    intro b a x x' _ hI hJ hlook c' hc'
    subst hc'
    unfold look at hlook
    split at hlook
    · obtain ⟨start, hstart, he⟩ := Option.map_eq_some_iff.mp hlook
      cases he
      exact .attach (one_le_startPosition hstart)
    · next c a =>
      obtain ⟨c'', hc, he⟩ := Option.map_eq_some_iff.mp hlook
      cases he
      exact (hJ c rfl).step (h.truthful hI) hc
    · cases hlook

/-- **The invariant holds of every Python consumer in every reachable state.** -/
theorem inv_reaches (h : Watchable I move view) (hinit : I init)
    (hreach : Reaches (Observed.step move (look cap view)) (beside κ init) s) :
    I s.base ∧ ∀ k c, s.observer k = some c → c.Inv cap (view s.base) :=
  (kept_inv h).invariant h.inv hinit (by rintro _ _ ⟨⟩) hreach

/-! ## What passes between two moments -/

/-- From `c` to `c'` the consumer did not seek, and its books are right. -/
structure Accounted (cap : Capacity) (v : View w ω) (c c' : RingConsumer w ω) : Prop where
  receiving : ¬ c'.Seeking
  sought : c'.sought = c.sought
  returned : c.returned <+: c'.returned
  books : ∃ D L, c.toAccount.Advance c'.toAccount D L [] ∧
    ∀ s ∈ L, ∃ k, s + cap.val ≤ k ∧ v.stored k

namespace Accounted

omit [Inhabited ω] in
theorem refl (h : ¬ c.Seeking) : Accounted cap v c c :=
  ⟨h, rfl, List.prefix_rfl, [], [], .refl _, by simp⟩

omit [Inhabited ω] in
theorem evolves (h : Accounted cap v c c') (he : v.Evolves v') : Accounted cap v' c c' := by
  obtain ⟨D, L, hadv, hL⟩ := h.books
  refine ⟨h.receiving, h.sought, h.returned, D, L, hadv, fun s hs => ?_⟩
  obtain ⟨k, hk, hst⟩ := hL s hs
  exact ⟨k, hk, he.stored k hst⟩

/-- **A memory access of a receive keeps the books.** -/
theorem step {c'' : RingConsumer w ω} {a : ConsumerLabel w} (h : Accounted cap v c c')
    (hv : v.Truthful) (hc : c'.Inv cap v) (ha : ∀ targetSeq, a ≠ .call (.seek targetSeq))
    (hstep : c'.step cap v.slots v.writeSeq a = some c'') : Accounted cap v c c'' := by
  obtain ⟨D, L, hadv, hL⟩ := h.books
  obtain ⟨D', L', hadv', -, hL'⟩ := hc.advance hv h.receiving hstep
  obtain ⟨hsought, hreturned⟩ := RingConsumer.step_returned h.receiving hstep
  refine ⟨RingConsumer.step_seeking ha hstep, hsought.trans h.sought,
    h.returned.trans hreturned, D ++ D', L ++ L', hadv.trans hadv', fun s hs => ?_⟩
  exact (List.mem_append.mp hs).elim (hL s) (hL' s)

end Accounted

/-- The label is no call of `seek`. -/
def ReaderLabel.Receives (l : ReaderLabel w) : Prop :=
  ∀ targetSeq, l ≠ .step (.call (.seek targetSeq))

omit [DecidableEq κ] in
/-- The books of one consumer since it was `c`, as the observer rule asks for them. -/
theorem kept_accounted (h : Watchable I move view) (c : RingConsumer w ω) :
    Observed.Kept I move (look cap view) ReaderLabel.Receives
      fun s x => ∃ c', x = some c' ∧ c'.Inv cap (view s) ∧ Accounted cap (view s) c c' where
  base := by
    rintro b b' l x hI ⟨c', rfl, hinv, hacc⟩ hstep
    have he := h.evolves hI hstep
    exact ⟨c', rfl, hinv.evolves he, hacc.evolves he⟩
  look := by
    rintro b a x x' hQ hI ⟨c', rfl, hinv, hacc⟩ hlook
    cases a with
    | attach => cases hlook
    | step a =>
      obtain ⟨c'', hc, rfl⟩ := Option.map_eq_some_iff.mp hlook
      have hv := h.truthful hI
      exact ⟨c'', rfl, hinv.step hv hc,
        hacc.step hv hinv (fun target he => hQ target (by rw [he])) hc⟩

/-- What passed from `c` to `c'`: the results `R` were returned, the messages `D` with their
sequences, and the sequences `L` were lost. -/
structure Passed (cap : Capacity) (v : View w ω) (c c' : RingConsumer w ω)
    (R : List (RecvStatus (Payload w ω))) (D : List (ℕ × Payload w ω)) (L : List ℕ) : Prop where
  returned : c'.returned = c.returned ++ R
  delivered : c'.delivered = c.delivered ++ D
  items : R.filterMap RecvStatus.item? = D.map Prod.snd
  skipped : (R.map RecvStatus.skipped).sum = L.length
  lappedCount : c'.lappedTotal = c.lappedTotal + L.length
  cursor : c'.cursor = c.cursor + (D.length + L.length)
  increasing : (D.map Prod.fst).Pairwise (· < ·)
  once : ∀ n, c.cursor ≤ n → n < c'.cursor → (D.map Prod.fst).count n + L.count n = 1
  overwritten : ∀ n ∈ L, ∃ m, n + cap.val ≤ m ∧ v.stored m

/-- What a Python reader of a ring may rely on, over every run of the ring. -/
structure Reads (cap : Capacity) (κ : Type) [DecidableEq κ] (move : σ → ι → Option σ)
    (view : σ → View w ω) (init : σ) : Prop where
  /-- Every message returned is the one pushed under the sequence of the cursor. -/
  intact : ∀ {s : Beside κ σ w ω} {k : κ} {c : RingConsumer w ω} {n : ℕ} {d : Payload w ω},
    Reaches (Observed.step move (look cap view)) (beside κ init) s → s.observer k = some c →
    (n, d) ∈ c.delivered → n ≠ slotWriting → (view s.base).message n = some d
  /-- Between two moments outside of calls, with no `seek` in between, every sequence passed was
  returned or reported as lost. -/
  accounted : ∀ {s s' : Beside κ σ w ω} {as : List (ObservedLabel κ ι (ReaderLabel w))} {k : κ}
    {c : RingConsumer w ω}, Reaches (Observed.step move (look cap view)) (beside κ init) s →
    s.observer k = some c → c.pc = .idle →
    (∀ l ∈ as, Observed.OfObserver k ReaderLabel.Receives l) →
    run (Observed.step move (look cap view)) s as = some s' →
    ∃ c', s'.observer k = some c' ∧
      (c'.pc = .idle → ∃ R D L, Passed cap (view s'.base) c c' R D L)

omit [Inhabited ω] in
theorem RingConsumer.not_seeking (h : c.pc = .idle) : ¬ c.Seeking := by
  rintro ⟨target, hpc⟩
  rw [h] at hpc
  cases hpc

omit [Inhabited ω] in
/-- The books of a consumer between two moments outside of calls. -/
theorem Accounted.passed (h : Accounted cap v c c') (hc : c.Reported) (hc' : c'.Reported)
    (hidle : c.pc = .idle) (hidle' : c'.pc = .idle) : ∃ R D L, Passed cap v c c' R D L := by
  obtain ⟨D, L, hadv, hL⟩ := h.books
  obtain ⟨R, hR⟩ := h.returned
  have hcursor := hadv.cursor_eq
  have htotal := hadv.lappedTotal
  have hcount := hc.count
  have hcount' := hc'.count
  simp only [RingConsumer.skippedNow, hidle] at hcount
  simp only [RingConsumer.skippedNow, hidle', ← hR, h.sought, List.map_append,
    List.sum_append] at hcount'
  simp only [List.length_nil, Nat.add_zero] at hcursor htotal
  have hitems := hc'.items
  rw [← hR, List.filterMap_append, hc.items, hadv.delivered, List.map_append] at hitems
  refine ⟨R, D, L, hR.symm, hadv.delivered, List.append_cancel_left hitems, by omega, htotal,
    hcursor, hadv.increasing, fun n hn hn' => ?_, hL⟩
  have hone := hadv.count_eq_one hn hn'
  rwa [List.count_nil, Nat.add_zero] at hone

/-- **A ring that can be watched can be read from Python.** -/
theorem reads_of_watchable (cap : Capacity) (κ : Type) [DecidableEq κ] (h : Watchable I move view)
    (hinit : I init) : Reads cap κ move view init where
  intact hreach hc hmem hn := ((inv_reaches h hinit hreach).2 _ _ hc).delivered _ _ hmem hn
  accounted := by
    intro s s' as k c hreach hc hidle has hrun
    obtain ⟨hI, hinv⟩ := inv_reaches h hinit hreach
    have hcinv := hinv k c hc
    obtain ⟨-, c', hc', hcinv', hacc⟩ := (kept_accounted h c).since h.inv has hI
      ⟨c, hc, hcinv, .refl (RingConsumer.not_seeking hidle)⟩ hrun
    exact ⟨c', hc', fun hidle' => hacc.passed hcinv.reported hcinv'.reported hidle hidle'⟩

/-! ## The two kinds of ring -/

/-- A single-producer ring can be read from Python. -/
theorem reads_system (ρ κ : Type) [DecidableEq ρ] [DecidableEq κ] (cfg : Config) :
    Reads cfg.cap κ (System.step cfg) System.view (System.create (ω := ω) ρ w cfg) :=
  reads_of_watchable cfg.cap κ (System.watchable cfg) (.create ρ w cfg)

/-- A multi-producer ring can be read from Python. -/
theorem reads_mpmcSystem (π ρ κ : Type) [DecidableEq π] [DecidableEq ρ] [DecidableEq κ]
    (cap : Capacity) :
    Reads cap κ (MpmcSystem.step cap) (fun s => s.mem.view) (MpmcSystem.create (ω := ω) π ρ w) :=
  reads_of_watchable cap κ (MpmcSystem.watchable cap) (.create π ρ w)

/-- **A Python consumer never returns a torn message.** In every interleaving of the writers of a
ring, of either kind, its Rust readers and any number of Python consumers, what a Python consumer
returned under sequence `n` is the message pushed under `n`. -/
theorem recv_intact {π ρ κ : Type} [DecidableEq π] [DecidableEq ρ] [DecidableEq κ]
    {c : RingConsumer w ω} {k : κ} {n : ℕ} {d : Payload w ω} (hmem : (n, d) ∈ c.delivered)
    (hn : n < u64Max) :
    (∀ (cfg : Config) (s : Beside κ (System ρ w ω) w ω),
      Reaches (Observed.step (System.step cfg) (look cfg.cap System.view))
        (beside κ (System.create ρ w cfg)) s →
      s.observer k = some c → s.base.producer.pushed[n - 1]? = some d) ∧
    ∀ (cap : Capacity) (s : Beside κ (MpmcSystem π ρ w ω) w ω),
      Reaches (Observed.step (MpmcSystem.step cap) (look cap fun s => s.mem.view))
        (beside κ (MpmcSystem.create π ρ w)) s →
      s.observer k = some c → s.base.mem.items n = some d :=
  ⟨fun cfg _ hreach hc => (reads_system ρ κ cfg).intact hreach hc hmem hn.ne,
    fun cap _ hreach hc => (reads_mpmcSystem π ρ κ cap).intact hreach hc hmem hn.ne⟩

/-- One message pushed, then read from Python. -/
theorem recv_intact_first :
    ∃ (s : Beside Unit (System Unit 1 ℕ) 1 ℕ) (c : RingConsumer 1 ℕ) (d : Payload 1 ℕ),
      Reaches (Observed.step (System.step System.oneSlot) (look System.oneSlot.cap System.view))
        (beside Unit (System.create Unit 1 System.oneSlot)) s ∧
      s.observer () = some c ∧ (1, d) ∈ c.delivered ∧ d 0 = 7 ∧
      s.base.producer.pushed[1 - 1]? = some d := by
  have hrun : Reaches
      (Observed.step (System.step System.oneSlot) (look System.oneSlot.cap System.view))
      (beside Unit (System.create Unit 1 System.oneSlot)) _ :=
    ⟨[.observer () (.attach none .oldest), .base (.producer (.call (.push fun _ => 7))),
      .base (.producer .tick), .base (.producer .tick), .base (.producer (.word 0)),
      .base (.producer .tick), .observer () (.step (.call .recvStatus)), .observer () (.step .tick),
      .observer () (.step (.word 0)), .observer () (.step .tick)], rfl⟩
  have hmem : (1, Function.update (fun _ => 0) 0 7) ∈
      [((1 : ℕ), (Function.update (fun _ => 0) 0 7 : Payload 1 ℕ))] := List.mem_singleton_self _
  exact ⟨_, _, _, hrun, rfl, hmem, rfl,
    (recv_intact (π := Unit) (n := 1) (k := ()) hmem (by decide)).1 _ _ hrun rfl⟩

/-- **A Python consumer reports every loss.** On rings of either kind, in every interleaving: the
statuses returned between two moments add up to the growth of `lapped_count`, and every sequence
the cursor passed was returned once or is one of the lost, which were overwritten. -/
theorem recv_accounted {π ρ κ : Type} [DecidableEq π] [DecidableEq ρ] [DecidableEq κ]
    {c : RingConsumer w ω} {k : κ} (hidle : c.pc = .idle) :
    (∀ (cfg : Config) (s s' : Beside κ (System ρ w ω) w ω) (c' : RingConsumer w ω)
      (as : List (ObservedLabel κ (Label ρ w ω) (ReaderLabel w))),
      Reaches (Observed.step (System.step cfg) (look cfg.cap System.view))
        (beside κ (System.create ρ w cfg)) s →
      s.observer k = some c → (∀ l ∈ as, Observed.OfObserver k ReaderLabel.Receives l) →
      run (Observed.step (System.step cfg) (look cfg.cap System.view)) s as = some s' →
      s'.observer k = some c' → c'.pc = .idle →
      ∃ R D L, Passed cfg.cap s'.base.view c c' R D L) ∧
    ∀ (cap : Capacity) (s s' : Beside κ (MpmcSystem π ρ w ω) w ω) (c' : RingConsumer w ω)
      (as : List (ObservedLabel κ (MpmcSystemLabel π ρ w ω) (ReaderLabel w))),
      Reaches (Observed.step (MpmcSystem.step cap) (look cap fun s => s.mem.view))
        (beside κ (MpmcSystem.create π ρ w)) s →
      s.observer k = some c → (∀ l ∈ as, Observed.OfObserver k ReaderLabel.Receives l) →
      run (Observed.step (MpmcSystem.step cap) (look cap fun s => s.mem.view)) s as = some s' →
      s'.observer k = some c' → c'.pc = .idle →
      ∃ R D L, Passed cap s'.base.mem.view c c' R D L := by
  refine ⟨fun cfg s s' c' as hreach hc has hrun hc' hidle' => ?_,
    fun cap s s' c' as hreach hc has hrun hc' hidle' => ?_⟩
  · obtain ⟨c'', hc'', h⟩ := (reads_system ρ κ cfg).accounted hreach hc hidle has hrun
    cases hc'.symm.trans hc''
    exact h hidle'
  · obtain ⟨c'', hc'', h⟩ := (reads_mpmcSystem π ρ κ cap).accounted hreach hc hidle has hrun
    cases hc'.symm.trans hc''
    exact h hidle'

/-- Two messages pushed into one slot, then a receive from Python: the first message is reported
as lost together with the second. -/
theorem recv_accounted_overtaken :
    ∃ (s s' : Beside Unit (System Unit 1 ℕ) 1 ℕ) (c c' : RingConsumer 1 ℕ),
      s.observer () = some c ∧ s'.observer () = some c' ∧ c.cursor = 1 ∧ c'.cursor = 3 ∧
        c'.returned.map RecvStatus.skipped = [1] ∧
        ∃ R D L, Passed System.oneSlot.cap s'.base.view c c' R D L := by
  obtain ⟨s, hs⟩ : ∃ s : Beside Unit (System Unit 1 ℕ) 1 ℕ, run
      (Observed.step (System.step System.oneSlot) (look System.oneSlot.cap System.view))
      (beside Unit (System.create Unit 1 System.oneSlot))
      [.observer () (.attach none .oldest)] = some s := ⟨_, rfl⟩
  obtain ⟨s', hs'⟩ : ∃ s', run
      (Observed.step (System.step System.oneSlot) (look System.oneSlot.cap System.view)) s
      [.base (.producer (.call (.pushBatch [fun _ => 7, fun _ => 8]))), .base (.producer .tick),
        .base (.producer .tick), .base (.producer (.word 0)), .base (.producer .tick),
        .base (.producer .tick), .base (.producer .tick), .base (.producer (.word 0)),
        .base (.producer .tick), .observer () (.step (.call .recvStatus)),
        .observer () (.step .tick), .observer () (.step .tick), .observer () (.step .tick),
        .observer () (.step (.word 0)), .observer () (.step .tick)] = some s' := by
    cases hs
    exact ⟨_, rfl⟩
  obtain ⟨c, hc, hidle, hcur⟩ : ∃ c, s.observer () = some c ∧ c.pc = .idle ∧ c.cursor = 1 := by
    cases hs
    exact ⟨_, rfl, rfl, rfl⟩
  obtain ⟨c', hc', hidle', hcur', hret⟩ : ∃ c', s'.observer () = some c' ∧ c'.pc = .idle ∧
      c'.cursor = 3 ∧ c'.returned.map RecvStatus.skipped = [1] := by
    cases hs
    cases hs'
    exact ⟨_, rfl, rfl, rfl, rfl⟩
  exact ⟨s, s', c, c', hc, hc', hcur, hcur', hret,
    (recv_accounted (π := Unit) hidle).1 System.oneSlot s s' c' _ ⟨_, hs⟩ hc
      (by simp [Observed.OfObserver, ReaderLabel.Receives]) hs' hc' hidle'⟩

end Python

end Ringfire
