import Ringfire.Foundation.Transition
import Ringfire.Ring.Consumer

/-!
# What a consumer is told about its losses

`recv_status` returns the number of messages it skipped together with the next message it finds.
The number is a local variable of `next_item`; a call that skips and then finds nothing returns
`Empty`, and the number is gone, while `lapped_count` keeps it.

A consumer only reads the ring, so its runs are taken over any sequence of memories: whatever the
producers do in between, the consumer sees some slots and some `write_seq` at each of its steps.

## Main definitions

* `RingConsumer.observe`: one memory access of a consumer, in the memory it sees
* `reported`: what the statuses returned so far add up to
* `RingConsumer.EndsEmpty`: the call ends without a message

## Main results

* `RingConsumer.reported_iff`: the statuses add up to `lapped_count` as long as no call skips and
  then ends without a message
-/

namespace Ringfire

variable {w : ℕ} {ω : Type}

/-- What a consumer's step sees and does. -/
structure Sight (w : ℕ) (ω : Type) where
  slots : ℕ → Slot w ω
  writeSeq : ℕ
  label : ConsumerLabel w

/-- The messages a status reports as skipped. -/
def RecvStatus.skipped {τ : Type} : RecvStatus τ → ℕ
  | .lapped skipped _ => skipped
  | .ok _ | .empty => 0

/-- What the statuses of a consumer add up to. -/
def reported {τ : Type} (returned : List (RecvStatus τ)) : ℕ :=
  (returned.map RecvStatus.skipped).sum

/-- A measure that a step which ends empty raises by the count of the call, and no other step
changes, rises exactly when the step ends empty with a count. -/
theorem rises_iff_of_ends {ends : Prop} {n : ℕ} {u u' : ℤ} (hends : ends → u' = u + n)
    (hgoes : ¬ ends → u' = u) : (ends ∧ 0 < n → u < u') ∧ (¬ (ends ∧ 0 < n) → u' = u) := by
  refine ⟨fun hbad => ?_, fun hgood => ?_⟩
  · rw [hends hbad.1]
    have hpos := hbad.2
    omega
  · by_cases he : ends
    · -- nothing was skipped, so nothing is lost
      have hzero : n = 0 := Nat.eq_zero_of_not_pos fun hpos => hgood ⟨he, hpos⟩
      rw [hends he, hzero]
      omega
    · exact hgoes he

namespace RingConsumer

/-- One memory access of a consumer. -/
def observe [Inhabited ω] (cap : Capacity) (c : RingConsumer w ω) (a : Sight w ω) :
    Option (RingConsumer w ω) :=
  (c.step cap a.slots a.writeSeq a.label).map Prod.fst

/-- The local count of `next_item`. -/
def skippedNow (c : RingConsumer w ω) : ℕ :=
  match c.pc with
  | .reading _ skipped _ | .skipLoad _ _ skipped _ | .staleLoad _ skipped | .holeLoad _ skipped
  | .holeSeen _ skipped _ | .holeScan _ skipped _ _ | .register (some (_, skipped)) => skipped
  | .idle | .register none | .latestLoad | .oldestLoad => 0

/-- The consumer is in no call but `recv_status`. -/
def InStatus (c : RingConsumer w ω) : Prop :=
  match c.pc with
  | .reading call _ _ | .staleLoad call _ | .holeLoad call _ | .holeSeen call _ _
  | .holeScan call _ _ _ | .register (some (call, _)) => call = .status
  | .skipLoad site call _ _ => site ≠ .attach ∧ call = .status
  | .idle | .register none => True
  | .latestLoad | .oldestLoad => False

/-- The next memory access ends `next_item` without a message. -/
def EndsEmpty [Inhabited ω] (cap : Capacity) (c : RingConsumer w ω) (a : Sight w ω) : Prop :=
  a.label = .tick ∧
    match c.pc with
    -- the slot is stale, and nothing else is tried
    | .reading _ _ rd =>
      rd.step (a.slots (slotIndex cap c.cursor)) c.cursor none = some (.done .pending) ∧
        c.multiProducer = false ∧ (c.sparse = true → (c.emptyPolls + 1) % 2 ^ 32 &&& 63 ≠ 0)
    | .skipLoad .overwritten _ _ seen => oldestRetained (max a.writeSeq seen) cap.val ≤ c.cursor
    | .staleLoad _ _ => a.writeSeq < c.cursor + cap.val
    | .holeLoad _ _ => a.writeSeq < c.cursor
    | .holeSeen _ _ _ => (a.slots (slotIndex cap c.cursor)).seq = slotWriting ∨
        c.cursor ≤ (a.slots (slotIndex cap c.cursor)).seq
    | _ => False

/-- The call ends without a message although it has skipped some. -/
def DropsCount [Inhabited ω] (cap : Capacity) (c : RingConsumer w ω) (a : Sight w ω) : Prop :=
  c.EndsEmpty cap a ∧ 0 < c.skippedNow

/-- What `lapped_count` has counted and no status has told, nor will the call in progress. -/
def unreported (c : RingConsumer w ω) : ℤ :=
  c.lappedTotal - reported c.returned - c.skippedNow

variable {cap : Capacity} {c c' : RingConsumer w ω} {a : Sight w ω}

/-- What one memory access does to the count: only a call that ends empty loses any of it. -/
structure Counted [Inhabited ω] (cap : Capacity) (c c' : RingConsumer w ω) (a : Sight w ω) :
    Prop where
  inStatus : c'.InStatus
  ends : c.EndsEmpty cap a → c'.unreported = c.unreported + c.skippedNow
  goes : ¬ c.EndsEmpty cap a → c'.unreported = c.unreported

theorem reported_append {τ : Type} (returned : List (RecvStatus τ)) (r : RecvStatus τ) :
    reported (returned ++ [r]) = reported returned + r.skipped := by
  simp [reported]

theorem skipped_statusOf (skipped : ℕ) (data : Payload w ω) :
    (statusOf skipped data).skipped = skipped := by
  unfold statusOf
  split_ifs with h
  · rfl
  · exact (Nat.eq_zero_of_not_pos h).symm

/-- `Empty` tells nothing. -/
theorem giveUp_unreported : (c.giveUp .status).unreported = c.unreported + c.skippedNow := by
  have hreported : reported (c.giveUp .status).returned = reported c.returned :=
    reported_append _ _
  have hnow : (c.giveUp .status).skippedNow = 0 := rfl
  have htotal : (c.giveUp .status).lappedTotal = c.lappedTotal := rfl
  unfold unreported
  rw [hreported, hnow, htotal]
  omega

/-- The status of a message tells what the call has skipped. -/
theorem deliver_unreported {data : Payload w ω} :
    (c.deliver c.skippedNow data .status).unreported = c.unreported := by
  have hreported : reported (c.deliver c.skippedNow data .status).returned =
      reported c.returned + c.skippedNow := by
    show reported (c.returned ++ [statusOf c.skippedNow data]) = _
    rw [reported_append, skipped_statusOf]
  have hnow : (c.deliver c.skippedNow data .status).skippedNow = 0 := by
    show (settle _ none).skippedNow = 0
    unfold settle
    dsimp only
    split_ifs <;> rfl
  have htotal : (c.deliver c.skippedNow data .status).lappedTotal = c.lappedTotal := rfl
  unfold unreported
  rw [hreported, hnow, htotal]
  omega

/-- What the cursor passes as lapped is in the count of the call. -/
theorem skipTo_unreported {target : ℕ} :
    (c.skipTo target (some (.status, c.skippedNow + (target - c.cursor)))).unreported =
      c.unreported := by
  have hnow : (c.skipTo target (some (.status, c.skippedNow + (target - c.cursor)))).skippedNow =
      c.skippedNow + (target - c.cursor) := by
    unfold skipTo settle
    dsimp only
    split_ifs <;> rfl
  have htotal : (c.skipTo target (some (.status, c.skippedNow + (target - c.cursor)))).lappedTotal =
      c.lappedTotal + (target - c.cursor) := rfl
  have hreturned : (c.skipTo target
      (some (.status, c.skippedNow + (target - c.cursor)))).returned = c.returned := rfl
  unfold unreported
  rw [hnow, htotal, hreturned]
  omega

theorem skipTo_inStatus {target s : ℕ} : (c.skipTo target (some (.status, s))).InStatus := by
  unfold skipTo settle InStatus
  dsimp only
  split_ifs <;> rfl

/-- `next_item` after `read_slot` returned, in `recv_status`. -/
theorem afterRead_counted [Inhabited ω] {rd : ReadPc w ω} {r : SlotRead (Payload w ω)}
    {skipped : ℕ} (hpc : c.pc = .reading .status skipped rd) (hlabel : a.label = .tick)
    (hr : rd.step (a.slots (slotIndex cap c.cursor)) c.cursor none = some (.done r))
    (h : c.afterRead .status skipped r = some c') : Counted cap c c' a := by
  have hnow : c.skippedNow = skipped := by simp only [skippedNow, hpc]
  subst hnow
  have hends : c.EndsEmpty cap a ↔ r = .pending ∧ c.multiProducer = false ∧
      (c.sparse = true → (c.emptyPolls + 1) % 2 ^ 32 &&& 63 ≠ 0) := by
    simp only [EndsEmpty, hpc, hlabel, hr, true_and, Option.some.injEq, ReadPc.done.injEq]
  cases r with
  | item data =>
    simp only [afterRead] at h
    split_ifs at h
    cases h
    refine ⟨?_, fun he => absurd (hends.mp he).1 (by rintro ⟨⟩), fun _ => deliver_unreported⟩
    show (settle _ none).InStatus
    unfold settle InStatus
    dsimp only
    split_ifs <;> trivial
  | overwritten seen =>
    cases h
    refine ⟨⟨by decide, rfl⟩, fun he => absurd (hends.mp he).1 (by rintro ⟨⟩), fun _ => ?_⟩
    unfold unreported
    rfl
  | pending =>
    simp only [afterRead] at h
    split_ifs at h with hmulti hsparse hpoll
    · cases h
      refine ⟨rfl, fun he => ?_, fun _ => rfl⟩
      rw [(hends.mp he).2.1] at hmulti
      cases hmulti
    · -- the 64th empty poll of a sparse ring looks for a hole
      cases h
      exact ⟨rfl, fun he => absurd hpoll ((hends.mp he).2.2 hsparse), fun _ => rfl⟩
    · cases h
      refine ⟨trivial, fun _ => ?_, fun he => absurd ?_ he⟩
      · exact giveUp_unreported (c := { c with emptyPolls := (c.emptyPolls + 1) % 2 ^ 32 })
      · exact hends.mpr ⟨rfl, Bool.not_eq_true _ ▸ hmulti, fun _ => hpoll⟩
    · cases h
      refine ⟨trivial, fun _ => giveUp_unreported, fun he => absurd ?_ he⟩
      exact hends.mpr ⟨rfl, Bool.not_eq_true _ ▸ hmulti, fun hs => absurd hs hsparse⟩

/-- A step inside a call that neither ends nor skips. -/
theorem Counted.move [Inhabited ω] {pc : ConsumerPc w ω} (hends : ¬ c.EndsEmpty cap a)
    (hin : ({ c with pc := pc } : RingConsumer w ω).InStatus)
    (hnow : ({ c with pc := pc } : RingConsumer w ω).skippedNow = c.skippedNow) :
    Counted cap c { c with pc := pc } a := by
  refine ⟨hin, fun he => absurd he hends, fun _ => ?_⟩
  unfold unreported
  rw [hnow]

theorem Counted.giveUp [Inhabited ω] (hends : c.EndsEmpty cap a) :
    Counted cap c (c.giveUp .status) a :=
  ⟨trivial, fun _ => giveUp_unreported, fun he => absurd hends he⟩

/-- The cursor skips, and the call goes on with what it has skipped. -/
theorem Counted.skipTo [Inhabited ω] {target skipped : ℕ} (hends : ¬ c.EndsEmpty cap a)
    (hnow : c.skippedNow = skipped) :
    Counted cap c (c.skipTo target (some (.status, skipped + (target - c.cursor)))) a := by
  subst hnow
  exact ⟨skipTo_inStatus, fun he => absurd he hends, fun _ => skipTo_unreported⟩

/-- **What one memory access of `recv_status` does to the count.** -/
theorem observe_counted [Inhabited ω] (hin : c.InStatus)
    (hcalls : ∀ call, a.label = .call call → call = .recvStatus)
    (h : c.observe cap a = some c') : Counted cap c c' a := by
  obtain ⟨⟨c'', stored⟩, hstep, rfl⟩ := Option.map_eq_some_iff.mp h
  obtain ⟨slots, writeSeq, label⟩ := a
  dsimp only at hstep hcalls ⊢
  unfold step at hstep
  split at hstep
  case h_1 call hpc =>
    cases hstep
    obtain rfl := hcalls call rfl
    exact .move (fun he => absurd he.1 (by rintro ⟨⟩)) rfl (by simp only [skippedNow, hpc])
  -- `read_slot`
  case h_2 call skipped rd i hpc =>
    split at hstep
    · next rd' hr =>
      cases hstep
      simp only [InStatus, hpc] at hin
      exact .move (fun he => absurd he.1 (by rintro ⟨⟩)) hin (by simp only [skippedNow, hpc])
    · cases hstep
  case h_3 call skipped rd hpc =>
    simp only [InStatus, hpc] at hin
    subst hin
    split at hstep
    · next r hr =>
      obtain ⟨_, hc, he⟩ := Option.map_eq_some_iff.mp hstep
      cases he
      exact afterRead_counted hpc rfl hr hc
    · next rd' hne hr =>
      cases hstep
      refine .move (fun he => ?_) rfl (by simp only [skippedNow, hpc])
      simp only [EndsEmpty, hpc] at he
      exact hne _ (Option.some.inj (hr.symm.trans he.2.1))
    · cases hstep
  -- `skip_overwritten`
  case h_4 site call skipped seen hpc =>
    cases hstep
    simp only [InStatus, hpc] at hin
    obtain ⟨hsite, rfl⟩ := hin
    have hnow : c.skippedNow = skipped := by simp only [skippedNow, hpc]
    unfold skipOverwritten
    split_ifs with hlt
    · have hends : ¬ c.EndsEmpty cap ⟨slots, writeSeq, .tick⟩ := by
        simp only [EndsEmpty, hpc, true_and]
        cases site with
        | overwritten => exact Nat.not_le.mpr hlt
        | stale | attach => exact id
      cases site with
      | overwritten | stale => exact .skipTo hends hnow
      | attach => exact absurd rfl hsite
    · cases site with
      | overwritten =>
        refine .giveUp ⟨rfl, ?_⟩
        simp only [hpc]
        exact Nat.not_lt.mp hlt
      | stale =>
        refine .move (fun he => ?_) rfl hnow.symm
        simp only [EndsEmpty, hpc, and_false] at he
      | attach => exact absurd rfl hsite
  case h_5 call skipped hpc =>
    simp only [InStatus, hpc] at hin
    subst hin
    split_ifs at hstep with hfits hahead
    · cases hstep
      refine .move (fun he => ?_) ⟨by decide, rfl⟩ (by simp only [skippedNow, hpc])
      simp only [EndsEmpty, hpc, true_and] at he
      exact absurd hahead (Nat.not_le.mpr he)
    · cases hstep
      refine .giveUp ⟨rfl, ?_⟩
      simp only [hpc]
      exact Nat.not_le.mp hahead
  -- `skip_hole`
  case h_6 call skipped hpc =>
    simp only [InStatus, hpc] at hin
    subst hin
    split_ifs at hstep with hbehind
    · cases hstep
      refine .giveUp ⟨rfl, ?_⟩
      simp only [hpc]
      exact hbehind
    · cases hstep
      refine .move (fun he => ?_) rfl (by simp only [skippedNow, hpc])
      simp only [EndsEmpty, hpc, true_and] at he
      exact hbehind he
  case h_7 call skipped ws hpc =>
    simp only [InStatus, hpc] at hin
    subst hin
    split_ifs at hstep with hlanded
    · cases hstep
      refine .giveUp ⟨rfl, ?_⟩
      simp only [hpc]
      exact hlanded
    · cases hstep
      refine .move (fun he => ?_) rfl (by simp only [skippedNow, hpc])
      simp only [EndsEmpty, hpc, true_and] at he
      exact hlanded he
  case h_8 call skipped ws next hpc =>
    simp only [InStatus, hpc] at hin
    subst hin
    have hends : ¬ c.EndsEmpty cap ⟨slots, writeSeq, .tick⟩ := by
      simp only [EndsEmpty, hpc, and_false, not_false_eq_true]
    split_ifs at hstep
    · cases hstep
      exact .move hends rfl (by simp only [skippedNow, hpc])
    · cases hstep
      exact .skipTo hends (by simp only [skippedNow, hpc])
  -- the registered cursor
  case h_9 resume hpc =>
    cases hstep
    have hends : ¬ c.EndsEmpty cap ⟨slots, writeSeq, .tick⟩ := by
      simp only [EndsEmpty, hpc, and_false, not_false_eq_true]
    cases resume with
    | none => exact .move hends trivial (by simp only [skippedNow, hpc, resumePc])
    | some p =>
      obtain ⟨call, skipped⟩ := p
      simp only [InStatus, hpc] at hin
      exact .move hends hin (by simp only [skippedNow, hpc, resumePc])
  case h_10 hpc => simp only [InStatus, hpc] at hin
  case h_11 hpc => simp only [InStatus, hpc] at hin
  case h_12 => cases hstep

/-- A call that drops its count leaves that much untold, and no other step leaves anything. -/
theorem observe_unreported [Inhabited ω] (hin : c.InStatus)
    (hcalls : ∀ call, a.label = .call call → call = .recvStatus)
    (h : c.observe cap a = some c') :
    c'.InStatus ∧ (c.DropsCount cap a → c.unreported < c'.unreported) ∧
      (¬ c.DropsCount cap a → c'.unreported = c.unreported) := by
  obtain ⟨hin', hends, hgoes⟩ := observe_counted hin hcalls h
  exact ⟨hin', rises_iff_of_ends hends hgoes⟩

/-- **When the statuses tell every loss.** Between two calls, a consumer that only calls
`recv_status` has been told everything `lapped_count` has counted since it attached exactly when
none of its calls has skipped messages and then ended without one. -/
theorem reported_iff [Inhabited ω] {c₀ : RingConsumer w ω} {as : List (Sight w ω)}
    (hattached : c₀.pc = .idle) (hnone : c₀.returned = [])
    (hcalls : ∀ a ∈ as, ∀ call, a.label = .call call → call = .recvStatus)
    (hr : Transition.run (observe cap) c₀ as = some c) (hidle : c.pc = .idle) :
    c₀.lappedTotal + reported c.returned = c.lappedTotal ↔
      Transition.Avoids (DropsCount cap) (observe cap) c₀ as := by
  have hin : c₀.InStatus := by simp only [InStatus, hattached]
  have hrun : c.unreported = c₀.unreported ↔
      Transition.Avoids (DropsCount cap) (observe cap) c₀ as :=
    Transition.run_measure_iff (P := InStatus)
      (Q := fun a : Sight w ω => ∀ call, a.label = .call call → call = .recvStatus)
      (fun hcall hc hstep => observe_unreported hc hcall hstep) hcalls hin hr
  have hnow₀ : c₀.skippedNow = 0 := by simp only [skippedNow, hattached]
  have hnow : c.skippedNow = 0 := by simp only [skippedNow, hidle]
  have hzero : reported c₀.returned = 0 := by rw [hnone]; rfl
  rw [← hrun]
  unfold unreported
  rw [hnow, hnow₀, hzero]
  omega

end RingConsumer

end Ringfire
