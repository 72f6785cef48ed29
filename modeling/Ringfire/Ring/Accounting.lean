import Ringfire.Mpmc.System
import Ringfire.Ring.System

/-!
# Reader accounting

A consumer on a ring without holes passes every sequence exactly once: it returns the message or
counts the sequence as lapped, and it counts a sequence as lapped only after a message a full
ring later has been stored. This holds over any interleaving of its receives with the producers'
memory accesses, on single-producer and on multi-producer rings.

## Main definitions

* `Accounted`: the books of a consumer between two moments
* `ReaderAccounting`: the statement for a system, over every run

## Main results

* `Accounted.step`: a receive's memory access keeps the books
* `reader_accounting`: the books are right on both kinds of ring
-/

namespace Ringfire

variable {w : ℕ} {ω : Type} {cap : Capacity} {v v' : View w ω} {c c' c'' : RingConsumer w ω}

/-- From `c` to `c'` the consumer only received, and its books are right. -/
structure Accounted (cap : Capacity) (v : View w ω) (c c' : RingConsumer w ω) : Prop where
  receiving : c'.jumping = false
  books : ∃ D L, c.toAccount.Advance c'.toAccount D L [] ∧
    ∀ s ∈ L, ∃ k, s + cap.val ≤ k ∧ v.stored k

namespace Accounted

theorem refl (h : c.jumping = false) : Accounted cap v c c :=
  ⟨h, [], [], .refl _, by simp⟩

theorem evolves (h : Accounted cap v c c') (he : v.Evolves v') : Accounted cap v' c c' := by
  obtain ⟨D, L, hadv, hL⟩ := h.books
  refine ⟨h.receiving, D, L, hadv, fun s hs => ?_⟩
  obtain ⟨k, hk, hst⟩ := hL s hs
  exact ⟨k, hk, he.stored k hst⟩

/-- **A receive's memory access keeps the books.** -/
theorem step [Inhabited ω] {a : ConsumerLabel w} {stored : Option ℕ} (h : Accounted cap v c c')
    (hv : v.Truthful) (hc : c'.Inv cap v)
    (ha : a ≠ .call .jumpToLatest ∧ a ≠ .call .jumpToOldest)
    (hstep : c'.step cap v.slots v.writeSeq a = some (c'', stored)) :
    Accounted cap v c c'' := by
  obtain ⟨D, L, hadv, hL⟩ := h.books
  obtain ⟨D', L', J', hadv', -, hL', hJ'⟩ := hc.advance hv hstep
  have hJ : J' = [] := by
    by_contra hne
    rw [h.receiving] at hJ'
    exact absurd (hJ' hne) Bool.false_ne_true
  subst hJ
  refine ⟨RingConsumer.step_jumping ha hstep, D ++ D', L ++ L', hadv.trans hadv', fun s hs => ?_⟩
  exact (List.mem_append.mp hs).elim (hL s) (hL' s)

end Accounted

/-- Reader accounting for a system: `reader` is the consumer looked at, `receives` the labels
under which it starts no jump, and `stored` the sequences stored in their slots so far. -/
structure ReaderAccounting {σ ι : Type} (cap : Capacity) (step : σ → ι → Option σ) (init : σ)
    (reader : σ → Option (RingConsumer w ω)) (receives : ι → Prop) (stored : σ → ℕ → Prop) :
    Prop where
  /-- Between any two moments, every sequence passed is returned once or lapped once. -/
  books : ∀ {s s' : σ} {as : List ι} {c c' : RingConsumer w ω}, Transition.Reaches step init s →
    reader s = some c → c.jumping = false → (∀ a ∈ as, receives a) →
    Transition.run step s as = some s' → reader s' = some c' →
    ∃ D L, c'.delivered = c.delivered ++ D ∧ c'.lapped = c.lapped ++ L ∧ c'.jumped = c.jumped ∧
      (D.map Prod.fst).Pairwise (· < ·) ∧ L.length = c'.lappedTotal - c.lappedTotal ∧
      c.lappedTotal ≤ c'.lappedTotal ∧ c.cursor ≤ c'.cursor ∧
      c'.cursor - c.cursor = D.length + (c'.lappedTotal - c.lappedTotal) ∧
      (∀ k ∈ D.map Prod.fst ++ L, c.cursor ≤ k ∧ k < c'.cursor) ∧
      ∀ k, c.cursor ≤ k → k < c'.cursor → (D.map Prod.fst).count k + L.count k = 1
  /-- A sequence is counted as lapped only after a message a full ring later was stored. -/
  lapped : ∀ {s s' : σ} {a : ι} {c c' : RingConsumer w ω}, Transition.Reaches step init s →
    reader s = some c → step s a = some s' → reader s' = some c' →
    ∃ L, c'.lapped = c.lapped ++ L ∧ ∀ k ∈ L, ∃ m, k + cap.val ≤ m ∧ stored s m

theorem Accounted.summary (h : Accounted cap v c c') :
    ∃ D L, c'.delivered = c.delivered ++ D ∧ c'.lapped = c.lapped ++ L ∧ c'.jumped = c.jumped ∧
      (D.map Prod.fst).Pairwise (· < ·) ∧ L.length = c'.lappedTotal - c.lappedTotal ∧
      c.lappedTotal ≤ c'.lappedTotal ∧ c.cursor ≤ c'.cursor ∧
      c'.cursor - c.cursor = D.length + (c'.lappedTotal - c.lappedTotal) ∧
      (∀ k ∈ D.map Prod.fst ++ L, c.cursor ≤ k ∧ k < c'.cursor) ∧
      ∀ k, c.cursor ≤ k → k < c'.cursor → (D.map Prod.fst).count k + L.count k = 1 := by
  obtain ⟨D, L, hadv, -⟩ := h.books
  have hcur := hadv.cursor_eq
  have htotal := hadv.lappedTotal
  simp only [List.length_nil, Nat.add_zero] at hcur htotal
  refine ⟨D, L, hadv.delivered, hadv.lapped, hadv.jumped.trans (List.append_nil _),
    hadv.increasing, by omega, by omega, hadv.le, by omega, fun k hk => ?_, fun k hk hk' => ?_⟩
  · exact hadv.mem_range (List.mem_append_left _ hk)
  · have hcount := hadv.count_eq_one hk hk'
    rwa [List.count_nil, Nat.add_zero] at hcount

/-! ## Single-producer rings -/

namespace System

variable {ρ : Type} [DecidableEq ρ] [Inhabited ω] {cfg : Config} {s s' : System ρ w ω}

/-- The consumer of reader `r`. -/
def consumer (r : ρ) (s : System ρ w ω) : Option (RingConsumer w ω) :=
  match s.readers r with
  | .attached _ _ c => some c
  | _ => none

/-- The label is not a jump call of reader `r`. -/
def Receives (r : ρ) (l : Label ρ w ω) : Prop :=
  l ≠ .reader r (.call .jumpToLatest) ∧ l ≠ .reader r (.call .jumpToOldest)

omit [DecidableEq ρ] [Inhabited ω] in
theorem consumer_eq_some {r : ρ} {c : RingConsumer w ω} :
    s.consumer r = some c ↔ ∃ pid slot, s.readers r = .attached pid slot c := by
  unfold consumer
  cases hr : s.readers r <;> simp

/-- A step of the system, seen from an attached consumer: it does not move, or it takes one of
its own steps, or it is dropped. -/
theorem consumer_step {l : Label ρ w ω} {r : ρ} {pid : ℕ} {slot : Option ℕ}
    {c : RingConsumer w ω} (h : s.Inv cfg) (hstep : s.step cfg l = some s')
    (hr : s.readers r = .attached pid slot c) :
    s.view.Evolves s'.view ∧
      (s'.readers r = .attached pid slot c ∨
        (∃ a c' stored, l = .reader r a ∧ s.alive pid = true ∧
          s'.readers r = .attached pid slot c' ∧ s'.view = s.view ∧
          c.step cfg.cap s.view.slots s.view.writeSeq a = some (c', stored)) ∨
        (∃ i, s'.readers r = .dropping pid i .deactivate) ∨ s'.readers r = .gone) := by
  cases step_move hstep with
  | producer a mem producer hp next =>
    subst next
    exact ⟨view_evolves h.ring (RingProducer.step_effect hp), .inl hr⟩
  | die pid next =>
    subst next
    exact ⟨⟨fun _ h => h, fun _ => le_refl _, fun _ _ h => h, fun _ => .refl _ _ _⟩, .inl hr⟩
  | reader r' x regs hm next =>
    subst next
    refine ⟨⟨fun _ h => h, fun _ => le_refl _, fun _ _ h => h, fun _ => .refl _ _ _⟩, ?_⟩
    rcases eq_or_ne r r' with rfl | hne
    · simp only [Function.update_self]
      rcases hm.attached hr with ⟨a, c', stored, hl, hlive, hc, rfl, -⟩ | ⟨-, ⟨i, -, rfl⟩ | ⟨-, rfl⟩⟩
      · exact .inr (.inl ⟨a, c', stored, hl, hlive, rfl, rfl, hc⟩)
      · exact .inr (.inr (.inl ⟨i, rfl⟩))
      · exact .inr (.inr (.inr rfl))
    · simp only [Function.update_of_ne hne]
      exact .inl hr

/-- The reader's consumer was dropped. -/
def retired : Reader w ω → Bool
  | .dropping _ _ _ | .gone => true
  | _ => false

omit [DecidableEq ρ] in
theorem ReaderMove.retired {l : Label ρ w ω} {r : ρ} {x : Reader w ω} {regs : ℕ → ReaderSlot}
    (hr : System.retired (s.readers r) = true) (hm : ReaderMove cfg s l r x regs) :
    System.retired x = true := by
  cases hm with
  | attach _ _ absent | readSlot _ absent =>
    rw [absent] at hr
    cases hr
  | step a label alive next =>
    cases hx : s.readers r with
    | dropping pid i pc =>
      rw [hx] at next
      cases a <;> cases pc <;> simp only [Reader.step] at next <;>
        first
        | cases next; done
        | cases next; rfl
        | (obtain ⟨y, -, he⟩ := Option.map_eq_some_iff.mp next; cases he; rfl)
    | gone =>
      rw [hx] at next
      cases a <;> cases next
    | absent | opening | registering | attached | slotReader =>
      rw [hx] at hr
      cases hr
  | drop alive next =>
    cases hx : s.readers r with
    | dropping | gone =>
      rw [hx] at next
      cases next
    | absent | opening | registering | attached | slotReader =>
      rw [hx] at hr
      cases hr

theorem retired_step {l : Label ρ w ω} {r : ρ} (hstep : s.step cfg l = some s')
    (hr : retired (s.readers r) = true) : retired (s'.readers r) = true := by
  cases step_move hstep with
  | producer a mem producer hp next => rw [next]; exact hr
  | die pid next => rw [next]; exact hr
  | reader r' x regs hm next =>
    subst next
    rcases eq_or_ne r r' with rfl | hne
    · simp only [Function.update_self]
      exact hm.retired hr
    · simp only [Function.update_of_ne hne]
      exact hr

/-- The books of reader `r` since it was the consumer `c`. -/
def Since (cap : Capacity) (r : ρ) (c : RingConsumer w ω) (s : System ρ w ω) : Prop :=
  retired (s.readers r) = true ∨
    ∃ pid slot c', s.readers r = .attached pid slot c' ∧ Accounted cap s.view c c'

theorem Since.step {l : Label ρ w ω} {r : ρ} {c : RingConsumer w ω} (hl : Receives r l)
    (h : s.Inv cfg) (hs : Since cfg.cap r c s) (hstep : s.step cfg l = some s') :
    Since cfg.cap r c s' := by
  rcases hs with hret | ⟨pid, slot, c', hr, hacc⟩
  · exact .inl (retired_step hstep hret)
  obtain ⟨hev, hcase⟩ := consumer_step h hstep hr
  rcases hcase with hr' | ⟨a, c'', stored, rfl, -, hr', hview, hc⟩ | ⟨i, hr'⟩ | hr'
  · exact .inr ⟨pid, slot, c', hr', hacc.evolves hev⟩
  · have hinv := h.readers r
    rw [hr] at hinv
    refine .inr ⟨pid, slot, c'', hr', ?_⟩
    rw [hview]
    exact hacc.step (view_truthful h.ring) hinv
      ⟨fun he => hl.1 (by rw [he]), fun he => hl.2 (by rw [he])⟩ hc
  · exact .inl (by rw [hr']; rfl)
  · exact .inl (by rw [hr']; rfl)

/-- The books of a consumer on a single-producer ring. -/
theorem accounting (cfg : Config) (r : ρ) :
    ReaderAccounting cfg.cap (step cfg) (create (ω := ω) ρ w cfg) (consumer r) (Receives r)
      fun s => s.view.stored where
  books := by
    intro s s' as c c' hs hc hidle has hrun hc'
    have hrun' := Transition.run_invariant
      (P := fun t => t.Inv cfg ∧ Since cfg.cap r c t) (Q := Receives r)
      (fun hl ht hstep => ⟨ht.1.step hstep, ht.2.step hl ht.1 hstep⟩) has
      ⟨Inv.reaches hs, by
        obtain ⟨pid, slot, hr⟩ := consumer_eq_some.mp hc
        exact .inr ⟨pid, slot, c, hr, .refl hidle⟩⟩ hrun
    obtain ⟨pid', slot', hr'⟩ := consumer_eq_some.mp hc'
    rcases hrun'.2 with hret | ⟨pid, slot, c'', hr, hacc⟩
    · rw [hr'] at hret
      cases hret
    · rw [hr'] at hr
      cases hr
      exact hacc.summary
  lapped := by
    intro s s' a c c' hs hc hstep hc'
    have hinv := Inv.reaches hs
    obtain ⟨pid, slot, hr⟩ := consumer_eq_some.mp hc
    obtain ⟨pid', slot', hr'⟩ := consumer_eq_some.mp hc'
    obtain ⟨-, hcase⟩ := consumer_step hinv hstep hr
    rw [hr'] at hcase
    rcases hcase with he | ⟨b, c'', stored, -, -, he, -, hb⟩ | ⟨i, he⟩ | he
    · cases he
      exact ⟨[], (List.append_nil _).symm, by simp⟩
    · cases he
      have hcinv := hinv.readers r
      rw [hr] at hcinv
      obtain ⟨D, L, J, hadv, -, hL, -⟩ := hcinv.advance (view_truthful hinv.ring) hb
      exact ⟨L, hadv.lapped, hL⟩
    · cases he
    · cases he

end System

/-! ## Multi-producer rings -/

namespace MpmcSystem

variable {π ρ : Type} [DecidableEq π] [DecidableEq ρ] [Inhabited ω] {s s' : MpmcSystem π ρ w ω}

/-- The consumer of reader `r`. -/
def consumer (r : ρ) (s : MpmcSystem π ρ w ω) : Option (RingConsumer w ω) :=
  match s.readers r with
  | .attached c => some c
  | _ => none

/-- The label is not a jump call of reader `r`. -/
def Receives (r : ρ) (l : MpmcSystemLabel π ρ w ω) : Prop :=
  l ≠ .reader r (.call .jumpToLatest) ∧ l ≠ .reader r (.call .jumpToOldest)

omit [DecidableEq π] [DecidableEq ρ] [Inhabited ω] in
theorem consumer_eq_some {r : ρ} {c : RingConsumer w ω} :
    s.consumer r = some c ↔ s.readers r = .attached c := by
  unfold consumer
  cases hr : s.readers r <;> simp

/-- A step of the system, seen from an attached consumer. -/
theorem consumer_step {l : MpmcSystemLabel π ρ w ω} {r : ρ} {c : RingConsumer w ω}
    (h : s.Inv cap) (hstep : s.step cap l = some s') (hr : s.readers r = .attached c) :
    s.mem.view.Evolves s'.mem.view ∧
      (s'.readers r = .attached c ∨
        ∃ a c' stored, l = .reader r a ∧ s'.readers r = .attached c' ∧ s'.mem = s.mem ∧
          c.step cap s.mem.view.slots s.mem.view.writeSeq a = some (c', stored)) := by
  have hsame : s.mem.view.Evolves s.mem.view :=
    ⟨fun _ h => h, fun _ => le_refl _, fun _ _ h => h, fun _ => .refl _ _ _⟩
  cases l with
  | producer p a =>
    simp only [step] at hstep
    split at hstep <;> cases hstep
    next mem pc hp =>
      exact ⟨(MpmcPc.step_effect hp).evolves h.mem (h.producers p), .inl hr⟩
  | attach r' start =>
    simp only [step] at hstep
    split at hstep <;> cases hstep
    next habs =>
      refine ⟨hsame, .inl ?_⟩
      have hne : r ≠ r' := by
        rintro rfl
        rw [hr] at habs
        cases habs
      simp only [Function.update_of_ne hne]
      exact hr
  | reader r' a =>
    simp only [step] at hstep
    split at hstep <;> cases hstep
    next x hx =>
      refine ⟨hsame, ?_⟩
      rcases eq_or_ne r r' with rfl | hne
      · rw [hr] at hx
        obtain ⟨⟨c', stored⟩, hc, rfl⟩ := Option.map_eq_some_iff.mp hx
        exact .inr ⟨a, c', stored, rfl, Function.update_self _ _ _, rfl, hc⟩
      · simp only [Function.update_of_ne hne]
        exact .inl hr

/-- The books of a consumer on a multi-producer ring. -/
theorem accounting (cap : Capacity) (r : ρ) :
    ReaderAccounting cap (step cap) (create (ω := ω) π ρ w) (consumer r) (Receives r)
      fun s k => k ∈ s.mem.stored where
  books := by
    intro s s' as c c' hs hc hidle has hrun hc'
    -- the reader only receives, so it stays attached
    have hrun' := Transition.run_invariant
      (P := fun t => t.Inv cap ∧
        ∃ c', t.readers r = .attached c' ∧ Accounted cap t.mem.view c c') (Q := Receives r)
      (fun {t l t'} hl ht hstep => by
        obtain ⟨hinv, c₁, hr, hacc⟩ := ht
        refine ⟨hinv.step hstep, ?_⟩
        obtain ⟨hev, hr' | ⟨a, c₂, stored, rfl, hr', hmem, hc₂⟩⟩ := consumer_step hinv hstep hr
        · exact ⟨c₁, hr', hacc.evolves hev⟩
        · have hcinv := hinv.readers r
          rw [hr] at hcinv
          refine ⟨c₂, hr', ?_⟩
          rw [hmem]
          exact hacc.step hinv.mem.truthful hcinv
            ⟨fun he => hl.1 (by rw [he]), fun he => hl.2 (by rw [he])⟩ hc₂)
      has ⟨Inv.reaches hs, c, consumer_eq_some.mp hc, .refl hidle⟩ hrun
    obtain ⟨-, c'', hr, hacc⟩ := hrun'
    rw [consumer_eq_some.mp hc'] at hr
    cases hr
    exact hacc.summary
  lapped := by
    intro s s' a c c' hs hc hstep hc'
    have hinv := Inv.reaches hs
    have hr := consumer_eq_some.mp hc
    obtain ⟨-, he | ⟨b, c'', stored, -, he, -, hb⟩⟩ := consumer_step hinv hstep hr
    · rw [consumer_eq_some.mp hc'] at he
      cases he
      exact ⟨[], (List.append_nil _).symm, by simp⟩
    · rw [consumer_eq_some.mp hc'] at he
      cases he
      have hcinv := hinv.readers r
      rw [hr] at hcinv
      obtain ⟨D, L, J, hadv, -, hL, -⟩ := hcinv.advance hinv.mem.truthful hb
      exact ⟨L, hadv.lapped, hL⟩

end MpmcSystem

end Ringfire
